import Tauri.Acl.CommandNames
import Tauri.Acl.ScopeIds
import Tauri.Acl.Transparency
import Tauri.Ipc.GlobalScope

/-!
# The global scope of a plugin's commands

`Resolved::resolve` records a global scope under the manifest key of the plugin. The argument
`GlobalScope<T>` of a command is looked up under a key of another origin: the command macro
derives a plugin name **from the crate the command is compiled in**, and a crate that is not
called `tauri-plugin-…` has none, which stands for the application.

The keys agree for a plugin `k` with a crate `tauri-plugin-k` and for no other: the commands of
the core plugins, which are compiled in the crate `tauri`, and those of plugins inlined in the
application receive the global scope of the application.
-/

namespace Tauri.Ipc

open Rust Acl

/-- The plugin name that `#[command]` writes into the `CommandItem`s of a command, from the
variable `CARGO_PKG_NAME`. -/
def commandPlugin (cargoPkgName : String) : Option String :=
  stripPrefix "tauri-plugin-" cargoPkgName

section FromCommand

variable {S : ScopeTypes}

/-- `GlobalScope::from_command`, for a `CommandItem` with this plugin. -/
def GlobalScope.fromCommand (sm : ScopeManager S) (t : S.Id) (plugin : Option String) :
    Outcome ScopeError (ScopeValue (S.Obj t)) × ScopeManager S :=
  sm.getGlobalScopeTyped t (plugin.getD appAclKey)

theorem GlobalScope.fromCommand_of_not_cached {sm : ScopeManager S} {t : S.Id}
    (h : sm.globalScopeCache.tryGet t = none) (plugin : Option String) :
    (fromCommand sm t plugin).1 = deserialized t (sm.globalScope[plugin.getD appAclKey]?.getD {}) :=
  (ScopeManager.getGlobalScopeTyped_of_not_cached h _).1

end FromCommand

/-- The global scope recorded under a manifest key reaches the commands of a crate: whatever is
resolved, an argument extracted with an empty cache is the scope recorded under the key. -/
def GlobalScopeReaches (key cargoPkgName : String) : Prop :=
  ∀ (G P : Type) (E : Patterns G P) (S : ScopeTypes) (acl : Manifests)
    (capabilities : Capabilities) (target : Target) (r : Resolved G P),
    Resolves E acl capabilities target r → ∀ scope, r.globalScope[key]? = some scope →
      ∀ (sm : ScopeManager S) (t : S.Id), sm.globalScope = r.globalScope →
        sm.globalScopeCache.tryGet t = none →
        (GlobalScope.fromCommand sm t (commandPlugin cargoPkgName)).1 = deserialized t scope

theorem commandPlugin_eq_some {cargoPkgName key : String} :
    commandPlugin cargoPkgName = some key ↔ cargoPkgName = "tauri-plugin-" ++ key :=
  stripPrefix_eq_some

theorem globalScopeReaches_of_eq {key cargoPkgName : String}
    (h : cargoPkgName = "tauri-plugin-" ++ key) : GlobalScopeReaches key cargoPkgName := by
  intro G P E S acl capabilities target r _ scope hsc sm t hsm hca
  rw [GlobalScope.fromCommand_of_not_cached hca, commandPlugin_eq_some.mpr h, hsm,
    Option.getD_some, hsc, Option.getD_some]

/-! ### One recorded scope -/

/-- A permission that names no command: its scope is a global one. -/
def scopePermission : Permission where
  identifier := "scope"
  scope := { allow := some [.string "value"] }

/-- A manifest whose permission `name`, or whose default, only carries a scope. -/
def scopeManifest (name : String) : Manifest where
  defaultPermission := some { identifier := "default", permissions := ["scope"] }
  permissions := ((∅ : BTreeMap String Permission).insert "scope" scopePermission).insert
    name scopePermission

/-- An access control list with the manifest that the identifier refers to. -/
def scopeAcl (id : Identifier) : Manifests :=
  (∅ : Manifests).insert (manifestKey id) (scopeManifest id.getBase)

def scopeCapability (id : Identifier) : Capability where
  identifier := "scope"
  permissions := [.permissionRef id]

def scopeCapabilities (id : Identifier) : Capabilities :=
  (∅ : Capabilities).insert "scope" (scopeCapability id)

theorem entryFlattens_scopeAcl (id : Identifier) : ∃ name,
    EntryFlattens (scopeAcl id) id [⟨manifestKey id, name, scopePermission⟩] := by
  have hm : (scopeAcl id)[manifestKey id]? = some (scopeManifest id.getBase) :=
    Std.ExtTreeMap.getElem?_insert_self
  by_cases hname : id.getBase = "default"
  · refine ⟨"scope", entryFlattens_iff.mpr ⟨.set ⟨id, scopeManifest id.getBase,
      { identifier := "default", permissions := ["scope"] }⟩, ?_, ?_⟩⟩
    · exact entryReference_eq_ok.mpr ⟨_, hm, .inr (.inl ⟨hname, _, rfl, rfl⟩)⟩
    · -- the member has no prefix, so it is a permission of the same manifest
      have hscan : (Identifier.mk "scope" none (by decide)).inner = "scope" := rfl
      refine flattens_singleton.mpr
        ⟨.permission ⟨manifestKey id, "scope", scopePermission⟩, ?_, rfl⟩
      rw [setMember_eq_of_local hscan fun k hk => by cases hk]
      refine memberIn_eq_ok.mpr (.inr (.inr (.inl ⟨by decide, scopePermission, ?_, rfl⟩)))
      rw [hname]
      rfl
  · refine ⟨id.getBase, (entryFlattens_name_iff hm hname).mpr (.inr ⟨?_, scopePermission, ?_, rfl⟩)⟩
    · simp [scopeManifest]
    · exact Std.ExtTreeMap.getElem?_insert_self

theorem exists_resolves_one_scope {G P : Type} (E : Patterns G P) (id : Identifier) :
    ∃ r : Resolved G P, Resolves E (scopeAcl id) (scopeCapabilities id) .linux r ∧
      ∀ key : String, r.globalScope[key]? =
        if manifestKey id = key then some { allow := [.string "value"] } else none := by
  obtain ⟨name, hflat⟩ := entryFlattens_scopeAcl id
  let it : Reached :=
    ⟨scopeCapability id, .permissionRef id, ⟨manifestKey id, name, scopePermission⟩⟩
  have hents : capabilityEntries (scopeCapabilities id) .linux =
      [(scopeCapability id, .permissionRef id)] := rfl
  refine ⟨tables E [it], (resolves_iff E).mpr ⟨[it], ⟨fun _ => [it.traversed], ?_, ?_⟩, ?_, rfl⟩,
    fun key => ?_⟩
  · intro ce hce
    rw [hents, List.mem_singleton] at hce
    subst hce
    exact hflat
  · rw [hents]
    rfl
  · intro it' hit' hglob
    rw [List.mem_singleton.mp hit'] at hglob
    exact Bool.noConfusion hglob
  · have htable := getElem?_globalScope_tables E [(⟨0, 0, 0⟩, it)] key
    rw [List.map_singleton] at htable
    rw [htable]
    by_cases hkey : manifestKey id = key
    · simp [globalValues, it, hkey, Reached.resolved, resolvedPermission, scopePermission,
        ResolvedPermission.isGlobal, concatScopes, Reached.scopeValues, PermissionEntry.scope]
    · simp [globalValues, it, hkey]

/-- **Which plugins receive their global scope.** The scope recorded under the key of a plugin
reaches the commands compiled in a crate exactly when the crate is `tauri-plugin-` followed by
the key. -/
theorem globalScopeReaches_iff {key : String} (hkey : ManifestKey key) (happ : key ≠ appAclKey)
    (cargoPkgName : String) :
    GlobalScopeReaches key cargoPkgName ↔ cargoPkgName = "tauri-plugin-" ++ key := by
  refine ⟨fun hreaches => ?_, globalScopeReaches_of_eq⟩
  obtain rfl | ⟨id, hid⟩ := hkey
  · exact absurd rfl happ
  have hman : manifestKey id = key := by rw [manifestKey, hid, Option.getD_some]
  obtain ⟨r, hr, hsc⟩ := exists_resolves_one_scope Sample.patterns id
  by_contra hcrate
  -- the name that the macro derives is another key, under which nothing is recorded
  have hother : manifestKey id ≠ (commandPlugin cargoPkgName).getD appAclKey := by
    rw [hman]
    cases hplug : commandPlugin cargoPkgName with
    | none => exact happ
    | some =>
      rintro rfl
      exact hcrate (commandPlugin_eq_some.mp hplug)
  let sm : ScopeManager Sample.scopeTypes := (RuntimeAuthority.new (scopeAcl id) r).scopeManager
  have hca : sm.globalScopeCache.tryGet () = none := rfl
  have hextr := hreaches _ _ Sample.patterns Sample.scopeTypes _ _ _ r hr _
    ((hsc key).trans (if_pos hman)) sm () rfl hca
  have hnone : sm.globalScope[(commandPlugin cargoPkgName).getD appAclKey]? = none :=
    (hsc _).trans (if_neg hother)
  rw [GlobalScope.fromCommand_of_not_cached hca, hnone] at hextr
  cases hextr

/-- The plugin `fs` has a crate of its own, the core plugin `core:window` has not. -/
theorem globalScopeReaches_fs_not_window :
    GlobalScopeReaches "fs" "tauri-plugin-fs" ∧ ¬ GlobalScopeReaches "core:window" "tauri" := by
  have hfs : ManifestKey "fs" := .inr ⟨Sample.fsDefault, by decide⟩
  refine ⟨(globalScopeReaches_iff hfs (by decide) _).mpr rfl, fun h => ?_⟩
  have hcrate := (globalScopeReaches_iff Acl.Sample.manifestKey_coreWindow (by decide) _).mp h
  exact absurd hcrate (by decide)

namespace Sample

/-- A manifest with one permission that only carries a scope value. -/
def pathScope (path : String) : Manifest where
  permissions := (∅ : BTreeMap String Permission).insert "scope"
    { identifier := "scope", scope := { allow := some [.string path] } }

/-- The core plugin `core:window`, the plugin `notes` inlined in the application, and the
application itself, each with a global scope. -/
def threeScopesAcl : Manifests :=
  (((∅ : Manifests).insert "core:window" (pathScope "/window")).insert
    "notes" (pathScope "/notes")).insert appAclKey (pathScope "/app")

def coreWindowScope : Identifier := ⟨"core:window:scope", some 11, by decide⟩

def notesScope : Identifier := ⟨"notes:scope", some 5, by decide⟩

def appScope : Identifier := ⟨"scope", none, by decide⟩

def threeScopes : Capabilities := (∅ : Capabilities).insert "scopes"
  { identifier := "scopes"
    permissions := [.permissionRef coreWindowScope, .permissionRef notesScope,
      .permissionRef appScope] }

end Sample

open Sample

/-- The values recorded for a core plugin and for an inlined plugin do not reach their commands,
which receive those of the application. -/
theorem globalScope_of_other_key : ∃ (r : Resolved String String)
    (sm : ScopeManager Sample.scopeTypes),
    Resolves Sample.patterns Sample.threeScopesAcl Sample.threeScopes .linux r ∧
    (r.globalScope["core:window"]?.map (·.allow)) = some [.string "/window"] ∧
    (r.globalScope["notes"]?.map (·.allow)) = some [.string "/notes"] ∧
    sm.globalScope = r.globalScope ∧ sm.globalScopeCache.tryGet () = none ∧
    ∀ cargoPkgName ∈ ["tauri", "notes-app"],
      (GlobalScope.fromCommand sm () (commandPlugin cargoPkgName)).1 = .ok ⟨["/app"], []⟩ := by
  have hok : (Resolved.resolve patterns 0 threeScopesAcl threeScopes
      .linux).isOk = true := rfl
  obtain ⟨r, hr⟩ := Outcome.isOk_iff.mp hok
  have hsc : r.globalScope = ((Resolved.resolve patterns 0 threeScopesAcl
      threeScopes .linux).getD ⟨∅, ∅, ∅, ∅⟩).globalScope := by rw [hr, Outcome.getD_ok]
  let sm : ScopeManager scopeTypes := (RuntimeAuthority.new threeScopesAcl r).scopeManager
  have hca : sm.globalScopeCache.tryGet () = none := rfl
  refine ⟨r, sm, ⟨0, hr⟩, ?_, ?_, rfl, hca, fun cargoPkgName hcrate => ?_⟩
  · rw [hsc]
    rfl
  · rw [hsc]
    rfl
  · have hnone : commandPlugin cargoPkgName = none := by
      simp only [List.mem_cons, List.not_mem_nil, or_false] at hcrate
      rcases hcrate with rfl | rfl <;> rfl
    have hsm : sm.globalScope = r.globalScope := rfl
    rw [hnone, GlobalScope.fromCommand_of_not_cached hca, hsm, hsc]
    rfl

end Tauri.Ipc
