import Tauri.Rust.Map
import Tauri.Acl.Identifier
import Tauri.Url

/-!
# The access control list

The data model of `tauri-utils`: manifests declare permissions and permission sets, a
capability grants some of them to windows and webviews, for the local origin or for remote
URLs. Fields that no modelled function reads (descriptions, versions, the scope schema) are left
out.

Glob patterns and URL patterns belong to third-party crates. `Patterns` bundles their
constructors and tests as parameters, over arbitrary pattern types `G` and `P`; nothing is
assumed about them.
-/

namespace Tauri.Acl

open Rust

/-- The target platforms. -/
inductive Target where
  | macOS
  | windows
  | linux
  | android
  | ios
  deriving DecidableEq, Repr

/-- An ACL number; a float is given by its bits. -/
inductive Number where
  | int (i : Int64)
  | float (bits : UInt64)
  deriving DecidableEq, Repr

/-- The values of a scope. A map is the list of its entries in increasing order of the keys. -/
inductive Value where
  | null
  | bool (b : Bool)
  | number (n : Number)
  | string (s : String)
  | list (vs : List Value)
  | map (entries : List (String × Value))
  deriving Repr

/-- `APP_ACL_KEY`: the key of the application's own manifest. -/
def appAclKey : String := "__app-acl__"

/-- The errors that resolving an ACL can return. -/
inductive Error where
  | glob (msg : String)
  | setPermissionNotFound (permission set : String)
  | unknownManifest (key available : String)
  | unknownPermission (key permission : String)
  deriving DecidableEq, Repr

/-- The commands a permission allows and denies. -/
structure Commands where
  allow : List String := []
  deny : List String := []
  deriving DecidableEq, Repr

/-- The scope values a permission or a capability entry adds; an absent list is different from
an empty one. -/
structure Scopes where
  allow : Option (List Value) := none
  deny : Option (List Value) := none
  deriving Repr

/-- A permission of a manifest. -/
structure Permission where
  identifier : String
  commands : Commands := {}
  scope : Scopes := {}
  platforms : Option (List Target) := none
  deriving Repr

/-- Whether a value restricted to some platforms applies to the target. -/
def activeOn (platforms : Option (List Target)) (target : Target) : Bool :=
  (platforms.map fun ps => ps.contains target).getD true

/-- `Permission::is_active`. -/
def Permission.isActive (p : Permission) (target : Target) : Bool := activeOn p.platforms target

/-- A named list of permissions and permission sets. -/
structure PermissionSet where
  identifier : String
  permissions : List String
  deriving DecidableEq, Repr

/-- The permissions that one plugin, or the application, declares. -/
structure Manifest where
  defaultPermission : Option PermissionSet := none
  permissions : BTreeMap String Permission := ∅
  permissionSets : BTreeMap String PermissionSet := ∅

/-- All manifests, by key. -/
abbrev Manifests := BTreeMap String Manifest

/-- A permission reference of a capability, possibly with scope values of its own. -/
inductive PermissionEntry where
  | permissionRef (identifier : Identifier)
  | extendedPermission (identifier : Identifier) (scope : Scopes)

/-- `PermissionEntry::identifier`. -/
def PermissionEntry.identifier : PermissionEntry → Identifier
  | .permissionRef identifier => identifier
  | .extendedPermission identifier _ => identifier

/-- The remote URL patterns of a capability. -/
structure CapabilityRemote where
  urls : List String := []
  deriving DecidableEq, Repr

/-- A capability: which permissions are granted, and to whom. -/
structure Capability where
  identifier : String
  remote : Option CapabilityRemote := none
  local_ : Bool := true
  windows : List String := []
  webviews : List String := []
  permissions : List PermissionEntry := []
  platforms : Option (List Target) := none

/-- `Capability::is_active`. -/
def Capability.isActive (c : Capability) (target : Target) : Bool := activeOn c.platforms target

/-- Capabilities by key, as the build collects them. -/
abbrev Capabilities := BTreeMap String Capability

/-- The formats of a capability file. -/
inductive CapabilityFile where
  | capability (c : Capability)
  | list (capabilities : List Capability)
  | namedList (capabilities : List Capability)

/-- The glob patterns and URL patterns of the third-party crates. -/
structure Patterns (G P : Type) where
  /-- `glob::Pattern::new`. -/
  newGlob : String → Except String G
  /-- `glob::Pattern::matches`. -/
  globMatches : G → String → Bool
  /-- `RemoteUrlPattern::from_str`. -/
  parseUrl : String → Except String P
  /-- `RemoteUrlPattern::test`. -/
  testUrl : P → Url → Bool

/-- `ExecutionContext`: where a command may be called from. -/
inductive ExecutionContext (P : Type) where
  | local_
  | remote (url : P)
  deriving DecidableEq, Repr

end Tauri.Acl
