import Tauri.Acl.Grammar
import Tauri.Acl.Types
import Tauri.Rust.HashSet
import Tauri.Rust.Outcome

/-!
# Migrating the allowlist of version 1

`tauri migrate` turns the `allowlist` of a version 1 configuration into permissions. Nearly all of
it is one macro, which tests the flag of everything, the flag of an object and the flag of an API;
its uses are the rows of `fsRows`, `windowRows` and so on. Two objects have a second route: when
the scope of `shell` or `http` is not empty, **the permission is pushed with the scope, and the
flags are not read**.

The APIs of version 1 and the permissions that cover each of them (`Api.permissions`) are stated
apart from the migration. A migration keeps the privileges where every permission with commands
covers an enabled API, which is the case exactly when no scope stands without its flag
(`allowlistToPermissions_keeps_iff`).
-/

namespace Tauri.Cli

open Rust Acl List Outcome

/-! ### The allowlist -/

inductive FsApi where
  | readFile | writeFile | readDir | copyFile | createDir | removeDir | removeFile | renameFile
  | exists_
  deriving DecidableEq, Repr

inductive WindowApi where
  | create | center | requestUserAttention | setResizable | setMaximizable | setMinimizable
  | setClosable | setTitle | maximize | unmaximize | minimize | unminimize | show_ | hide | close
  | setDecorations | setAlwaysOnTop | setContentProtected | setSize | setMinSize | setMaxSize
  | setPosition | setFullscreen | setFocus | setIcon | setSkipTaskbar | setCursorGrab
  | setCursorVisible | setCursorIcon | setCursorPosition | setIgnoreCursorEvents | startDragging
  | print
  deriving DecidableEq, Repr

inductive DialogApi where
  | open_ | save | message | ask | confirm
  deriving DecidableEq, Repr

inductive ProcessApi where
  | relaunch | exit
  deriving DecidableEq, Repr

inductive ClipboardApi where
  | readText | writeText
  deriving DecidableEq, Repr

inductive AppApi where
  | show_ | hide
  deriving DecidableEq, Repr

/-- The APIs of version 1 that a flag enables. Those of `notification`, `globalShortcut` and `os`
have the flag of their object only. -/
inductive Api where
  | fs (api : FsApi)
  | window (api : WindowApi)
  | shellExecute
  | shellSidecar
  | shellOpen
  | dialog (api : DialogApi)
  | httpRequest
  | notification
  | globalShortcut
  | os
  | process (api : ProcessApi)
  | clipboard (api : ClipboardApi)
  | app (api : AppApi)
  deriving DecidableEq, Repr

/-- An object of the allowlist whose other fields are flags. -/
structure ObjectConfig (F : Type) where
  all : Bool := false
  flag : F → Bool := fun _ => false

/-- What the scopes of an allowlist hold, and how the migration writes it. -/
structure ScopeCrates where
  Path : Type
  Command : Type
  Url : Type
  /-- `Path::to_string_lossy`. -/
  pathText : Path → String
  /-- `serde_json::to_value`, as an ACL value. -/
  commandValue : Command → Value
  /-- `Url::to_string`. -/
  urlText : Url → String

/-- `FsAllowlistScope`. -/
inductive FsAllowlistScope (Path : Type) where
  | allowedPaths (paths : List Path)
  | scope (allow deny : List Path)

/-- `ShellAllowlistOpen`: a flag, or a regular expression that URLs have to match. -/
inductive ShellAllowlistOpen where
  | flag (b : Bool)
  | validate (regex : String)
  deriving DecidableEq, Repr

/-- `AllowlistConfig` of version 1, without `path` and `protocol`. -/
structure AllowlistConfig (V : ScopeCrates) where
  all : Bool := false
  fs : ObjectConfig FsApi := {}
  fsScope : FsAllowlistScope V.Path := .allowedPaths []
  window : ObjectConfig WindowApi := {}
  shellAll : Bool := false
  shellExecute : Bool := false
  shellSidecar : Bool := false
  shellOpen : ShellAllowlistOpen := .flag false
  shellScope : List V.Command := []
  dialog : ObjectConfig DialogApi := {}
  httpAll : Bool := false
  httpRequest : Bool := false
  httpScope : List V.Url := []
  notificationAll : Bool := false
  globalShortcutAll : Bool := false
  osAll : Bool := false
  process : ObjectConfig ProcessApi := {}
  clipboard : ObjectConfig ClipboardApi := {}
  app : ObjectConfig AppApi := {}

namespace AllowlistConfig

variable {V : ScopeCrates} (a : AllowlistConfig V)

/-- The `all` flag of the object of an API. -/
def objectAll : Api → Bool
  | .fs _ => a.fs.all
  | .window _ => a.window.all
  | .shellExecute | .shellSidecar | .shellOpen => a.shellAll
  | .dialog _ => a.dialog.all
  | .httpRequest => a.httpAll
  | .notification => a.notificationAll
  | .globalShortcut => a.globalShortcutAll
  | .os => a.osAll
  | .process _ => a.process.all
  | .clipboard _ => a.clipboard.all
  | .app _ => a.app.all

/-- The flag of an API; `shell > open` is on unless it is the flag `false`. -/
def flag : Api → Bool
  | .fs api => a.fs.flag api
  | .window api => a.window.flag api
  | .shellExecute => a.shellExecute
  | .shellSidecar => a.shellSidecar
  | .shellOpen => a.shellOpen != .flag false
  | .dialog api => a.dialog.flag api
  | .httpRequest => a.httpRequest
  | .notification => a.notificationAll
  | .globalShortcut => a.globalShortcutAll
  | .os => a.osAll
  | .process api => a.process.flag api
  | .clipboard api => a.clipboard.flag api
  | .app api => a.app.flag api

/-- The condition of the macro `permissions!`: the allowlist enables the API. -/
def enables (api : Api) : Bool := a.all || a.objectAll api || a.flag api

end AllowlistConfig

/-! ### The migration -/

/-- A use of the macro `permissions!`: the API whose flags it tests, and the permission. -/
abbrev Row := Api × String

def fsRows : List Row :=
  [(.fs .readFile, "fs:allow-read-file"),
   (.fs .writeFile, "fs:allow-write-file"),
   (.fs .readDir, "fs:allow-read-dir"),
   (.fs .copyFile, "fs:allow-copy-file"),
   (.fs .createDir, "fs:allow-mkdir"),
   (.fs .removeDir, "fs:allow-remove"),
   (.fs .removeFile, "fs:allow-remove"),
   (.fs .renameFile, "fs:allow-rename"),
   (.fs .exists_, "fs:allow-exists")]

def windowRows : List Row :=
  [(.window .create, "core:window:allow-create"),
   (.window .center, "core:window:allow-center"),
   (.window .requestUserAttention, "core:window:allow-request-user-attention"),
   (.window .setResizable, "core:window:allow-set-resizable"),
   (.window .setMaximizable, "core:window:allow-set-maximizable"),
   (.window .setMinimizable, "core:window:allow-set-minimizable"),
   (.window .setClosable, "core:window:allow-set-closable"),
   (.window .setTitle, "core:window:allow-set-title"),
   (.window .maximize, "core:window:allow-maximize"),
   (.window .unmaximize, "core:window:allow-unmaximize"),
   (.window .minimize, "core:window:allow-minimize"),
   (.window .unminimize, "core:window:allow-unminimize"),
   (.window .show_, "core:window:allow-show"),
   (.window .hide, "core:window:allow-hide"),
   (.window .close, "core:window:allow-close"),
   (.window .setDecorations, "core:window:allow-set-decorations"),
   (.window .setAlwaysOnTop, "core:window:allow-set-always-on-top"),
   (.window .setContentProtected, "core:window:allow-set-content-protected"),
   (.window .setSize, "core:window:allow-set-size"),
   (.window .setMinSize, "core:window:allow-set-min-size"),
   (.window .setMaxSize, "core:window:allow-set-max-size"),
   (.window .setPosition, "core:window:allow-set-position"),
   (.window .setFullscreen, "core:window:allow-set-fullscreen"),
   (.window .setFocus, "core:window:allow-set-focus"),
   (.window .setIcon, "core:window:allow-set-icon"),
   (.window .setSkipTaskbar, "core:window:allow-set-skip-taskbar"),
   (.window .setCursorGrab, "core:window:allow-set-cursor-grab"),
   (.window .setCursorVisible, "core:window:allow-set-cursor-visible"),
   (.window .setCursorIcon, "core:window:allow-set-cursor-icon"),
   (.window .setCursorPosition, "core:window:allow-set-cursor-position"),
   (.window .setIgnoreCursorEvents, "core:window:allow-set-ignore-cursor-events"),
   (.window .startDragging, "core:window:allow-start-dragging"),
   (.window .print, "core:webview:allow-print")]

def dialogRows : List Row :=
  [(.dialog .open_, "dialog:allow-open"),
   (.dialog .save, "dialog:allow-save"),
   (.dialog .message, "dialog:allow-message"),
   (.dialog .ask, "dialog:allow-ask"),
   (.dialog .confirm, "dialog:allow-confirm")]

/-- The uses behind `http`. -/
def otherRows : List Row :=
  [(.notification, "notification:default"),
   (.globalShortcut, "global-shortcut:allow-is-registered"),
   (.globalShortcut, "global-shortcut:allow-register"),
   (.globalShortcut, "global-shortcut:allow-register-all"),
   (.globalShortcut, "global-shortcut:allow-unregister"),
   (.globalShortcut, "global-shortcut:allow-unregister-all"),
   (.os, "os:allow-platform"),
   (.os, "os:allow-version"),
   (.os, "os:allow-os-type"),
   (.os, "os:allow-family"),
   (.os, "os:allow-arch"),
   (.os, "os:allow-exe-extension"),
   (.os, "os:allow-locale"),
   (.os, "os:allow-hostname"),
   (.process .relaunch, "process:allow-restart"),
   (.process .exit, "process:allow-exit"),
   (.clipboard .readText, "clipboard-manager:allow-read-text"),
   (.clipboard .writeText, "clipboard-manager:allow-write-text"),
   (.app .show_, "core:app:allow-app-show"),
   (.app .hide, "core:app:allow-app-hide")]

section Migration

variable {V : ScopeCrates} (a : AllowlistConfig V)

/-- `permission.to_string().try_into().unwrap()`. -/
def identifierOf (permission : String) : Outcome Empty Identifier :=
  match Identifier.tryFrom permission with
  | .ok id => .ok id
  | .error _ => .panic "called `Result::unwrap()` on an `Err` value"

/-- The permission without a scope, pushed under a condition. -/
def pushIf (condition : Bool) (permission : String) : Outcome Empty (List PermissionEntry) :=
  if condition then identifierOf permission >>= fun id => .ok [.permissionRef id] else .ok []

/-- The permission with a scope. -/
def pushScoped (permission : String) (scope : Scopes) : Outcome Empty (List PermissionEntry) :=
  identifierOf permission >>= fun id => .ok [.extendedPermission id scope]

/-- Some uses of the macro, in order. -/
def pushRows (rows : List Row) : Outcome Empty (List PermissionEntry) :=
  rows.foldlM (fun permissions row =>
    pushIf (a.enables row.1) row.2 >>= fun more => .ok (permissions ++ more)) []

/-- The paths that the scope of `fs` allows and denies. -/
def fsPaths : FsAllowlistScope V.Path → List V.Path × List V.Path
  | .allowedPaths paths => (paths, [])
  | .scope allow deny => (allow, deny)

/-- The values of a scope; no values are an absent list. -/
def scopeList (values : List Value) : Option (List Value) :=
  if values.isEmpty then none else some values

def fsScopePermissions : Outcome Empty (List PermissionEntry) :=
  let (fsAllowed, fsDenied) := fsPaths a.fsScope
  if !(fsAllowed.isEmpty && fsDenied.isEmpty) then
    pushScoped "fs:scope"
      { allow := scopeList (fsAllowed.map fun p => .string (V.pathText p))
        deny := scopeList (fsDenied.map fun p => .string (V.pathText p)) }
  else .ok []

/-- The two routes of `shell:allow-execute`. Without a scope the flag of sidecars is looked at
only if the first use of the macro has not pushed the permission. -/
def shellPermissions : Outcome Empty (List PermissionEntry) :=
  if a.shellScope.isEmpty then
    pushIf (a.enables .shellExecute) "shell:allow-execute" >>= fun permissions =>
      if a.enables .shellExecute then .ok permissions
      else pushIf (a.enables .shellSidecar) "shell:allow-execute" >>= fun more =>
        .ok (permissions ++ more)
  else pushScoped "shell:allow-execute" { allow := some (a.shellScope.map V.commandValue) }

/-- The two routes of `http:default`. -/
def httpPermissions : Outcome Empty (List PermissionEntry) :=
  if a.httpScope.isEmpty then pushIf (a.enables .httpRequest) "http:default"
  else pushScoped "http:default"
    { allow := some (a.httpScope.map fun p => .map [("url", .string (V.urlText p))]) }

/-- The parts of the migration, in order. -/
def migrationParts : List (Outcome Empty (List PermissionEntry)) :=
  [pushRows a fsRows, fsScopePermissions a, pushRows a windowRows, shellPermissions a,
   pushIf (a.all || a.shellAll || a.shellOpen != .flag false) "shell:allow-open",
   pushRows a dialogRows, httpPermissions a, pushRows a otherRows]

/-- `allowlist_to_permissions`. -/
def allowlistToPermissions : Outcome Empty (List PermissionEntry) :=
  (migrationParts a).foldlM (fun permissions part =>
    part >>= fun more => .ok (permissions ++ more)) []

/-- `KNOWN_PLUGINS`. -/
def knownPlugins : List String :=
  ["fs", "shell", "dialog", "http", "notification", "global-shortcut", "os", "process",
   "clipboard-manager"]

/-- `plugins_from_permissions`: the first known plugin that each permission starts with. -/
def pluginsFromPermissions (permissions : List PermissionEntry) : HashSet String :=
  permissions.foldl (fun plugins permission =>
    match knownPlugins.find? fun plugin => startsWith plugin permission.identifier.inner with
    | some plugin => plugins.insert plugin
    | none => plugins) ∅

/-- `MigratedConfig`, as far as the allowlist determines it. -/
structure MigratedConfig where
  permissions : List PermissionEntry
  plugins : HashSet String

/-- The part of `migrate_config` that migrates the allowlist. -/
def migrateAllowlist : Outcome Empty MigratedConfig :=
  allowlistToPermissions a >>= fun permissions =>
    .ok ⟨permissions, pluginsFromPermissions permissions⟩

end Migration

/-! ### Privileges -/

/-- The name of a window API, as version 1 and version 2 write it. -/
def WindowApi.name : WindowApi → String
  | .create => "create"
  | .center => "center"
  | .requestUserAttention => "request-user-attention"
  | .setResizable => "set-resizable"
  | .setMaximizable => "set-maximizable"
  | .setMinimizable => "set-minimizable"
  | .setClosable => "set-closable"
  | .setTitle => "set-title"
  | .maximize => "maximize"
  | .unmaximize => "unmaximize"
  | .minimize => "minimize"
  | .unminimize => "unminimize"
  | .show_ => "show"
  | .hide => "hide"
  | .close => "close"
  | .setDecorations => "set-decorations"
  | .setAlwaysOnTop => "set-always-on-top"
  | .setContentProtected => "set-content-protected"
  | .setSize => "set-size"
  | .setMinSize => "set-min-size"
  | .setMaxSize => "set-max-size"
  | .setPosition => "set-position"
  | .setFullscreen => "set-fullscreen"
  | .setFocus => "set-focus"
  | .setIcon => "set-icon"
  | .setSkipTaskbar => "set-skip-taskbar"
  | .setCursorGrab => "set-cursor-grab"
  | .setCursorVisible => "set-cursor-visible"
  | .setCursorIcon => "set-cursor-icon"
  | .setCursorPosition => "set-cursor-position"
  | .setIgnoreCursorEvents => "set-ignore-cursor-events"
  | .startDragging => "start-dragging"
  | .print => "print"

/-- The commands of the `fs` plugin behind the file system APIs: the two ways of removing are one
command. -/
def FsApi.command : FsApi → String
  | .readFile => "read-file"
  | .writeFile => "write-file"
  | .readDir => "read-dir"
  | .copyFile => "copy-file"
  | .createDir => "mkdir"
  | .removeDir | .removeFile => "remove"
  | .renameFile => "rename"
  | .exists_ => "exists"

def DialogApi.name : DialogApi → String
  | .open_ => "open"
  | .save => "save"
  | .message => "message"
  | .ask => "ask"
  | .confirm => "confirm"

/-- **The permissions of version 2 that cover an API of version 1.** -/
def Api.permissions : Api → List String
  | .fs api => ["fs:allow-" ++ api.command]
  | .window .print => ["core:webview:allow-print"]
  | .window api => ["core:window:allow-" ++ api.name]
  | .shellExecute | .shellSidecar => ["shell:allow-execute"]
  | .shellOpen => ["shell:allow-open"]
  | .dialog api => ["dialog:allow-" ++ api.name]
  | .httpRequest => ["http:default"]
  | .notification => ["notification:default"]
  | .globalShortcut => ["is-registered", "register", "register-all", "unregister",
      "unregister-all"].map ("global-shortcut:allow-" ++ ·)
  | .os => ["platform", "version", "os-type", "family", "arch", "exe-extension", "locale",
      "hostname"].map ("os:allow-" ++ ·)
  | .process .relaunch => ["process:allow-restart"]
  | .process .exit => ["process:allow-exit"]
  | .clipboard .readText => ["clipboard-manager:allow-read-text"]
  | .clipboard .writeText => ["clipboard-manager:allow-write-text"]
  | .app .show_ => ["core:app:allow-app-show"]
  | .app .hide => ["core:app:allow-app-hide"]

section Privileges

variable {V : ScopeCrates} (a : AllowlistConfig V)

/-- An API that the permission covers was enabled: by the flag of everything, the flag of its
object, or its own flag. The permission `fs:scope` names no command. -/
def Kept (permission : String) : Prop :=
  permission ≠ "fs:scope" → ∃ api : Api, permission ∈ api.permissions ∧
    (a.all = true ∨ a.objectAll api = true ∨ a.flag api = true)

/-- The permissions enable no command whose API was not enabled. -/
def KeepsPrivileges (permissions : List PermissionEntry) : Prop :=
  ∀ entry ∈ permissions, Kept a entry.identifier.inner

variable {a}

variable {api : Api} {permission : String} {scope : Scopes} {permissions : List PermissionEntry}

theorem enables_iff : a.enables api = true ↔
    a.all = true ∨ a.objectAll api = true ∨ a.flag api = true := by
  simp only [AllowlistConfig.enables, Bool.or_eq_true, or_assoc]

theorem kept_of_enables (hcov : permission ∈ api.permissions) (hen : a.enables api = true) :
    Kept a permission :=
  fun _ => ⟨api, hcov, enables_iff.mp hen⟩

theorem covers_of_row : ∀ row ∈ fsRows ++ windowRows ++ dialogRows ++ otherRows,
    row.2 ∈ row.1.permissions := by
  decide +kernel

theorem scan_of_row : ∀ row ∈ fsRows ++ windowRows ++ dialogRows ++ otherRows,
    ∃ separator, scanIdentifier row.2 = .ok separator := by
  simp only [fsRows, windowRows, dialogRows, otherRows, forall_mem_append, forall_mem_cons]
  repeat' apply And.intro
  all_goals first | exact exists_scanIdentifier_ofList rfl | exact forall_mem_nil _

theorem identifierOf_eq_ok {id : Identifier} :
    identifierOf permission = .ok id ↔ id.inner = permission := by
  rw [← Identifier.tryFrom_eq_ok, identifierOf]
  cases Identifier.tryFrom permission <;> simp

section

variable (h : ∃ separator, scanIdentifier permission = .ok separator)
include h

theorem exists_identifierOf : ∃ id, identifierOf permission = .ok id := by
  obtain ⟨separator, hscan⟩ := h
  exact ⟨⟨permission, separator, hscan⟩, identifierOf_eq_ok.mpr rfl⟩

theorem exists_pushIf {condition : Bool} :
    ∃ permissions, pushIf condition permission = .ok permissions := by
  cases condition with
  | false => exact ⟨[], rfl⟩
  | true => exact exists_bind_eq_ok (exists_identifierOf h) fun _ => ⟨_, rfl⟩

theorem exists_pushScoped : ∃ permissions, pushScoped permission scope = .ok permissions :=
  exists_bind_eq_ok (exists_identifierOf h) fun _ => ⟨_, rfl⟩

end

theorem of_mem_pushIf {condition : Bool} (h : pushIf condition permission = .ok permissions)
    {entry : PermissionEntry} (hent : entry ∈ permissions) :
    condition = true ∧ entry.identifier.inner = permission := by
  cases condition with
  | false =>
    cases h
    cases hent
  | true =>
    obtain ⟨id, hid, hlist⟩ := bind_eq_ok.mp h
    cases hlist
    rw [mem_singleton.mp hent]
    exact ⟨rfl, identifierOf_eq_ok.mp hid⟩

theorem mem_pushScoped (h : pushScoped permission scope = .ok permissions) :
    ∃ entry, permissions = [entry] ∧ entry.identifier.inner = permission := by
  obtain ⟨id, hid, hlist⟩ := bind_eq_ok.mp h
  cases hlist
  exact ⟨_, rfl, identifierOf_eq_ok.mp hid⟩

theorem exists_pushRows {rows : List Row}
    (h : ∀ row ∈ rows, ∃ separator, scanIdentifier row.2 = .ok separator) :
    ∃ permissions, pushRows a rows = .ok permissions := by
  refine exists_foldlM_eq_ok (fun row hrow permissions => ?_) []
  exact exists_bind_eq_ok (exists_pushIf (h row hrow)) fun _ => ⟨_, rfl⟩

/-- **The macro keeps the privileges.** -/
theorem exists_pushRows_keeps {rows : List Row}
    (hrows : rows ⊆ fsRows ++ windowRows ++ dialogRows ++ otherRows) :
    ∃ permissions, pushRows a rows = .ok permissions ∧ KeepsPrivileges a permissions := by
  obtain ⟨permissions, hpush⟩ := @exists_pushRows V a rows fun row hrow =>
    scan_of_row row (hrows hrow)
  refine ⟨permissions, hpush, fun entry hent => ?_⟩
  obtain ⟨row, hrow, more, hmore, hmem⟩ := (mem_of_foldlM_append hpush).mp hent
  obtain ⟨hen, hinner⟩ := of_mem_pushIf hmore hmem
  rw [hinner]
  exact kept_of_enables (covers_of_row row (hrows hrow)) hen

theorem exists_fsScopePermissions :
    ∃ permissions, fsScopePermissions a = .ok permissions ∧ KeepsPrivileges a permissions := by
  simp only [fsScopePermissions]
  split_ifs
  · obtain ⟨permissions, h⟩ := @exists_pushScoped "fs:scope" _ (exists_scanIdentifier_ofList rfl)
    refine ⟨permissions, h, ?_⟩
    obtain ⟨entry, rfl, hinner⟩ := mem_pushScoped h
    intro entry' hent'
    rw [mem_singleton.mp hent', hinner]
    exact fun hne => absurd rfl hne
  · exact ⟨[], rfl, fun _ h => absurd h not_mem_nil⟩

theorem covers_scoped (api : Api) :
    ("shell:allow-execute" ∈ api.permissions → api = .shellExecute ∨ api = .shellSidecar) ∧
      ("http:default" ∈ api.permissions → api = .httpRequest) := by
  cases api with
  | fs api | window api | dialog api | process api | clipboard api | app api => cases api <;> decide
  | shellExecute | shellSidecar | shellOpen | httpRequest | notification | globalShortcut | os =>
    decide

theorem kept_shellExecute_iff : Kept a "shell:allow-execute" ↔
    a.all = true ∨ a.shellAll = true ∨ a.shellExecute = true ∨ a.shellSidecar = true := by
  constructor
  · intro hkept
    obtain ⟨api, hcov, hen⟩ := hkept (by decide)
    rcases (covers_scoped api).1 hcov with rfl | rfl
    · exact hen.imp_right (Or.imp_right .inl)
    · exact hen.imp_right (Or.imp_right .inr)
  · rintro (hall | hobj | hflag | hflag)
    · exact fun _ => ⟨.shellExecute, by decide, .inl hall⟩
    · exact fun _ => ⟨.shellExecute, by decide, .inr (.inl hobj)⟩
    · exact fun _ => ⟨.shellExecute, by decide, .inr (.inr hflag)⟩
    · exact fun _ => ⟨.shellSidecar, by decide, .inr (.inr hflag)⟩

theorem kept_http_iff : Kept a "http:default" ↔
    a.all = true ∨ a.httpAll = true ∨ a.httpRequest = true := by
  constructor
  · intro hkept
    obtain ⟨api, hcov, hen⟩ := hkept (by decide)
    obtain rfl := (covers_scoped api).2 hcov
    exact hen
  · exact fun hen _ => ⟨.httpRequest, by decide, hen⟩

section

variable (h : ∃ separator, scanIdentifier permission = .ok separator)
include h

theorem exists_pushScoped_keeps_iff :
    ∃ permissions, pushScoped permission scope = .ok permissions ∧
      (KeepsPrivileges a permissions ↔ Kept a permission) := by
  obtain ⟨permissions, hpush⟩ := @exists_pushScoped permission scope h
  obtain ⟨entry, rfl, rfl⟩ := mem_pushScoped hpush
  exact ⟨[entry], hpush, forall_mem_singleton⟩

theorem exists_pushIf_keeps (hcov : permission ∈ api.permissions) :
    ∃ permissions, pushIf (a.enables api) permission = .ok permissions ∧
      KeepsPrivileges a permissions := by
  obtain ⟨permissions, hpush⟩ := @exists_pushIf permission h (a.enables api)
  refine ⟨permissions, hpush, fun entry hent => ?_⟩
  obtain ⟨hen, hinner⟩ := of_mem_pushIf hpush hent
  rw [hinner]
  exact kept_of_enables hcov hen

end

/-- The shell permission keeps the privileges without a scope; with one, its flags decide. -/
theorem exists_shellPermissions : ∃ permissions, shellPermissions a = .ok permissions ∧
    (KeepsPrivileges a permissions ↔ (a.shellScope ≠ [] → Kept a "shell:allow-execute")) := by
  have hscan : ∃ separator, scanIdentifier "shell:allow-execute" = .ok separator :=
    exists_scanIdentifier_ofList rfl
  rw [shellPermissions]
  split_ifs with hemp hen
  · obtain ⟨permissions, hpush, hkeeps⟩ :=
      @exists_pushIf_keeps V a .shellExecute _ hscan (by decide)
    refine ⟨permissions, ?_, iff_of_true hkeeps fun hne => absurd (isEmpty_iff.mp hemp) hne⟩
    rw [hpush, ok_bind]
  · obtain ⟨permissions, hpush, hkeeps⟩ :=
      @exists_pushIf_keeps V a .shellSidecar _ hscan (by decide)
    refine ⟨permissions, ?_, iff_of_true hkeeps fun hne => absurd (isEmpty_iff.mp hemp) hne⟩
    rw [Bool.not_eq_true] at hen
    rw [hen, pushIf, if_neg Bool.false_ne_true, ok_bind, hpush, ok_bind, nil_append]
  · obtain ⟨permissions, hpush, hiff⟩ := @exists_pushScoped_keeps_iff V a _
      { allow := some (a.shellScope.map V.commandValue) } hscan
    refine ⟨permissions, hpush, hiff.trans ⟨fun hkept _ => hkept, fun hkept => hkept ?_⟩⟩
    simpa using hemp

theorem exists_httpPermissions : ∃ permissions, httpPermissions a = .ok permissions ∧
    (KeepsPrivileges a permissions ↔ (a.httpScope ≠ [] → Kept a "http:default")) := by
  have hscan : ∃ separator, scanIdentifier "http:default" = .ok separator :=
    exists_scanIdentifier_ofList rfl
  rw [httpPermissions]
  split_ifs with hemp
  · obtain ⟨permissions, hpush, hkeeps⟩ := @exists_pushIf_keeps V a .httpRequest _ hscan (by decide)
    exact ⟨permissions, hpush,
      iff_of_true hkeeps fun hne => absurd (isEmpty_iff.mp hemp) hne⟩
  · obtain ⟨permissions, hpush, hiff⟩ := @exists_pushScoped_keeps_iff V a _
      { allow := some (a.httpScope.map fun p => .map [("url", .string (V.urlText p))]) } hscan
    refine ⟨permissions, hpush, hiff.trans ⟨fun hkept _ => hkept, fun hkept => hkept ?_⟩⟩
    simpa using hemp

theorem keepsPrivileges_append {more : List PermissionEntry} :
    KeepsPrivileges a (permissions ++ more) ↔
      KeepsPrivileges a permissions ∧ KeepsPrivileges a more :=
  forall_mem_append

variable (a)

/-- **When the migration keeps the privileges.** `allowlist_to_permissions` returns, and every
permission with commands that it emits covers an enabled API exactly when a scope of `shell`
comes with a flag that enables executing or sidecars, and a scope of `http` with one that enables
requests. -/
theorem allowlistToPermissions_keeps_iff : ∃ permissions,
    allowlistToPermissions a = .ok permissions ∧
      (KeepsPrivileges a permissions ↔
        (a.shellScope ≠ [] → a.all = true ∨ a.shellAll = true ∨ a.shellExecute = true ∨
          a.shellSidecar = true) ∧
        (a.httpScope ≠ [] → a.all = true ∨ a.httpAll = true ∨ a.httpRequest = true)) := by
  obtain ⟨fs, hfs, hfsKeeps⟩ := @exists_pushRows_keeps V a fsRows fun row hrow => by simp [hrow]
  obtain ⟨fsScope, hfsScope, hfsScopeKeeps⟩ := @exists_fsScopePermissions V a
  obtain ⟨window, hwindow, hwindowKeeps⟩ :=
    @exists_pushRows_keeps V a windowRows fun row hrow => by simp [hrow]
  obtain ⟨shell, hshell, hshellKeeps⟩ := @exists_shellPermissions V a
  obtain ⟨open_, hopen, hopenKeeps⟩ :=
    @exists_pushIf_keeps V a .shellOpen "shell:allow-open" (exists_scanIdentifier_ofList rfl)
      (by decide)
  obtain ⟨dialog, hdialog, hdialogKeeps⟩ :=
    @exists_pushRows_keeps V a dialogRows fun row hrow => by simp [hrow]
  obtain ⟨http, hhttp, hhttpKeeps⟩ := @exists_httpPermissions V a
  obtain ⟨other, hother, hotherKeeps⟩ :=
    @exists_pushRows_keeps V a otherRows fun row hrow => by simp [hrow]
  have hopen' : pushIf (a.all || a.shellAll || a.shellOpen != .flag false) "shell:allow-open" =
      .ok open_ := hopen
  refine ⟨fs ++ fsScope ++ window ++ shell ++ open_ ++ dialog ++ http ++ other, ?_, ?_⟩
  · simp only [allowlistToPermissions, migrationParts, foldlM_cons, foldlM_nil, hfs,
      hfsScope, hwindow, hshell, hopen', hdialog, hhttp, hother, ok_bind, pure_eq,
      nil_append]
  · -- only the two permissions that carry a scope can fail
    simp only [keepsPrivileges_append, hfsKeeps, hfsScopeKeeps, hwindowKeeps, hshellKeeps,
      hopenKeeps, hdialogKeeps, hhttpKeeps, hotherKeeps, kept_shellExecute_iff, kept_http_iff,
      true_and, and_true]

/-! ### Plugins -/

variable {a} {entry : PermissionEntry}

/-- The permissions that the migration may emit. -/
def emitted : List String :=
  (fsRows ++ windowRows ++ dialogRows ++ otherRows).map (·.2) ++
    ["fs:scope", "shell:allow-execute", "shell:allow-open", "http:default"]

theorem mem_pushRows {rows : List Row} (h : pushRows a rows = .ok permissions)
    (hent : entry ∈ permissions) : entry.identifier.inner ∈ rows.map (·.2) := by
  obtain ⟨row, hrow, _, hmore, hmem⟩ := (mem_of_foldlM_append h).mp hent
  exact mem_map.mpr ⟨row, hrow, (of_mem_pushIf hmore hmem).2.symm⟩

theorem mem_emitted (h : allowlistToPermissions a = .ok permissions) (hent : entry ∈ permissions) :
    entry.identifier.inner ∈ emitted := by
  obtain ⟨part, hpart, _, hmore, hmem⟩ := (mem_of_foldlM_append h).mp hent
  simp only [migrationParts, mem_cons, not_mem_nil, or_false] at hpart
  rcases hpart with rfl | rfl | rfl | rfl | rfl | rfl | rfl | rfl
  case inr.inr.inr.inl =>
    unfold shellPermissions at hmore
    split_ifs at hmore
    all_goals try simp only [bind_eq_ok] at hmore
    all_goals grind [emitted, → mem_pushScoped, → of_mem_pushIf]
  all_goals
    grind [emitted, fsScopePermissions, httpPermissions, → mem_pushScoped, → of_mem_pushIf,
      → mem_pushRows]

/-- The plugin that is found for a permission is the one in front of the `:`. -/
theorem find_plugin : ∀ permission ∈ emitted,
    (knownPlugins.find? (startsWith · permission)).elim (startsWith "core:" permission)
      (fun plugin => startsWith (plugin ++ ":") permission) = true := by
  decide +kernel

theorem mem_pluginsFromPermissions {plugin : String} :
    plugin ∈ pluginsFromPermissions permissions ↔ ∃ entry ∈ permissions,
      knownPlugins.find? (startsWith · entry.identifier.inner) = some plugin := by
  induction permissions using reverseRecOn with
  | nil => simp [pluginsFromPermissions]
  | append_singleton permissions entry ih =>
    rw [pluginsFromPermissions, foldl_append, foldl_cons, foldl_nil, ← pluginsFromPermissions]
    cases h : knownPlugins.find? (startsWith · entry.identifier.inner) <;>
      simp [h, ih, or_and_right, exists_or, or_comm, eq_comm]

/-- **The plugins of a migration** are those that its permissions are of, apart from the core. -/
theorem migrateAllowlist_plugins {c : MigratedConfig} (h : migrateAllowlist a = .ok c) :
    (∀ entry ∈ c.permissions, startsWith "core:" entry.identifier.inner = true ∨
        ∃ plugin ∈ c.plugins, startsWith (plugin ++ ":") entry.identifier.inner = true) ∧
      ∀ plugin ∈ c.plugins, ∃ entry ∈ c.permissions,
        startsWith (plugin ++ ":") entry.identifier.inner = true := by
  obtain ⟨permissions, hmigrated, hc⟩ := bind_eq_ok.mp h
  cases hc
  simp only [mem_pluginsFromPermissions]
  refine ⟨fun entry hent => ?_, fun plugin ⟨entry, hent, hfind⟩ => ⟨entry, hent, ?_⟩⟩
  · have hfound := find_plugin _ (mem_emitted hmigrated hent)
    cases hfind : knownPlugins.find? (startsWith · entry.identifier.inner) with
    | none => exact .inl (by simpa [hfind] using hfound)
    | some plugin => exact .inr ⟨plugin, ⟨entry, hent, hfind⟩, by simpa [hfind] using hfound⟩
  · simpa [hfind] using find_plugin _ (mem_emitted hmigrated hent)

end Privileges

namespace Sample

/-- Scopes whose values are texts. -/
def textScopes : ScopeCrates where
  Path := String
  Command := String
  Url := String
  pathText := id
  commandValue := .string
  urlText := id

/-- An allowlist with scopes and no flag at all. -/
def scopesWithoutFlags : AllowlistConfig textScopes where
  shellScope := ["sh"]
  httpScope := ["http://localhost:3003/"]

def shellAllowExecute : Identifier := ⟨"shell:allow-execute", some 5, by decide⟩

def httpDefault : Identifier := ⟨"http:default", some 4, by decide⟩

end Sample

theorem sample_plugins : ∃ c, migrateAllowlist Sample.scopesWithoutFlags = .ok c ∧
    ∀ plugin ∈ c.plugins, ∃ entry ∈ c.permissions,
      startsWith (plugin ++ ":") entry.identifier.inner = true :=
  ⟨_, rfl, (migrateAllowlist_plugins (a := Sample.scopesWithoutFlags) rfl).2⟩

/-- Nothing was enabled, and the migration allows executing and requests. -/
theorem migration_widens_privileges : ∃ permissions,
    allowlistToPermissions Sample.scopesWithoutFlags = .ok permissions ∧
    permissions.map (·.identifier.inner) = ["shell:allow-execute", "http:default"] ∧
    ∀ entry ∈ permissions, ¬ Kept Sample.scopesWithoutFlags entry.identifier.inner := by
  have hnone : ∀ api, Sample.scopesWithoutFlags.enables api = false := by
    intro api
    cases api <;> rfl
  refine ⟨[.extendedPermission Sample.shellAllowExecute { allow := some [.string "sh"] },
    .extendedPermission Sample.httpDefault
      { allow := some [.map [("url", .string "http://localhost:3003/")]] }], rfl, rfl, ?_⟩
  intro entry hent hkept
  have hne : entry.identifier.inner ≠ "fs:scope" := by
    simp only [mem_cons, not_mem_nil, or_false] at hent
    rcases hent with rfl | rfl <;> decide
  obtain ⟨api, -, hen⟩ := hkept hne
  rw [← enables_iff, hnone api] at hen
  cases hen

end Tauri.Cli
