import Tauri.Acl.Grammar
import Tauri.Acl.References

/-!
# References in different positions

A permission can be referred to from a capability, from a set of its own manifest and from a set
of another one. The three ways are resolved by two routines: `get_permissions` looks for a set
before it looks for a permission, and `get_permission_set_permissions` the other way round.
`reference_transparent_iff` says for which names this makes no difference.

Nothing keeps a manifest from using one name twice: `Manifest.new` collects permissions and sets
in two maps.
-/

namespace Tauri.Acl

open Rust Option

/-! ### Manifests from permission files -/

/-- `DefaultPermission`, without the texts. -/
structure DefaultPermission where
  permissions : List String

/-- `PermissionFile`. -/
structure PermissionFile where
  default : Option DefaultPermission := none
  set : List PermissionSet := []
  permission : List Permission := []

/-- One file of `Manifest::new`: a later default, permission or set replaces an earlier one. -/
def Manifest.addFile (manifest : Manifest) (file : PermissionFile) : Manifest where
  defaultPermission :=
    match file.default with
    | some default => some ⟨"default", default.permissions⟩
    | none => manifest.defaultPermission
  permissions := manifest.permissions.insertAll (file.permission.map fun p => (p.identifier, p))
  permissionSets := manifest.permissionSets.insertAll (file.set.map fun s => (s.identifier, s))

/-- `Manifest::new`. -/
def Manifest.new (permissionFiles : List PermissionFile) : Manifest :=
  permissionFiles.foldl Manifest.addFile {}

/-! ### What a reference yields -/

/-- The list behind a reference. -/
def Reference.Flattens (acl : Manifests) : Reference → List TraversedPermission → Prop
  | .nothing, ts => ts = []
  | .permission t, ts => ts = [t]
  | .set node, ts => Acl.Flattens acl node node.set.permissions ts

/-- Resolving the permission entry returns the list. -/
def Yields (acl : Manifests) (permissionId : Identifier) (ts : List TraversedPermission) : Prop :=
  ∃ fuel, getPermissions fuel permissionId acl = .ok ts

section Yields

variable {acl : Manifests}

variable {id : Identifier} {ts : List TraversedPermission} {node : SetNode}

theorem yields_iff : Yields acl id ts ↔ EntryFlattens acl id ts := by
  constructor
  · rintro ⟨fuel, h⟩
    exact entryFlattens_of_getPermissions h
  · intro h
    obtain ⟨fuel, hfuel⟩ := h.exists_fuel
    exact ⟨fuel, hfuel fuel le_rfl⟩

theorem entryFlattens_iff :
    EntryFlattens acl id ts ↔ ∃ ref, entryReference id acl = .ok ref ∧ ref.Flattens acl ts := by
  constructor
  · rintro (⟨href, rfl⟩ | ⟨t, href, rfl⟩ | ⟨node, href, hset⟩)
    · exact ⟨_, href, rfl⟩
    · exact ⟨_, href, rfl⟩
    · exact ⟨_, href, hset⟩
  · rintro ⟨ref, href, hts⟩
    cases ref with
    | nothing => exact .inl ⟨href, hts⟩
    | permission t => exact .inr (.inl ⟨t, href, hts⟩)
    | set node => exact .inr (.inr ⟨node, href, hts⟩)

theorem flattens_singleton {perm : String} :
    Flattens acl node [perm] ts ↔
      ∃ ref, setMember acl node perm = .ok ref ∧ ref.Flattens acl ts := by
  constructor
  · intro h
    cases h with
    | nothing href hrest | permission href hrest =>
      cases hrest
      exact ⟨_, href, rfl⟩
    | set href hset hrest =>
      cases hrest
      rw [List.append_nil]
      exact ⟨_, href, hset⟩
  · rintro ⟨ref, href, hts⟩
    cases ref with
    | nothing =>
      obtain rfl : ts = [] := hts
      exact .nothing href .nil
    | permission t =>
      obtain rfl : ts = [t] := hts
      exact .permission href .nil
    | set =>
      have hset : Flattens acl node [perm] (ts ++ []) := .set href hts .nil
      rwa [List.append_nil] at hset

/-! ### The key is all that matters of an identifier -/

/-- Two nodes that look their members up under the same key. -/
def SameLookup (node node' : SetNode) : Prop :=
  manifestKey node.permissionId = manifestKey node'.permissionId ∧ node.manifest = node'.manifest

/-- Two references that stand for the same. -/
inductive SameReference : Reference → Reference → Prop
  | nothing : SameReference .nothing .nothing
  | permission (t : TraversedPermission) : SameReference (.permission t) (.permission t)
  | set {node node' : SetNode} (hlookup : SameLookup node node') (hset : node.set = node'.set) :
      SameReference (.set node) (.set node')

variable {permissionId : Identifier} {manifest : Manifest}

theorem memberIn_same {permissionId' : Identifier} {permissionName set set' : String}
    (hkey : manifestKey permissionId = manifestKey permissionId') {ref : Reference}
    (h : memberIn permissionId manifest permissionName set = .ok ref) :
    ∃ ref', memberIn permissionId' manifest permissionName set' = .ok ref' ∧
      SameReference ref ref' := by
  rcases memberIn_eq_ok.mp h with ⟨hd, hnone, rfl⟩ | ⟨hd, default, hsome, rfl⟩ |
    ⟨hd, p, hp, rfl⟩ | ⟨hd, hp, s, hs, rfl⟩
  · exact ⟨_, memberIn_eq_ok.mpr (.inl ⟨hd, hnone, rfl⟩), .nothing⟩
  · exact ⟨_, memberIn_eq_ok.mpr (.inr (.inl ⟨hd, default, hsome, rfl⟩)), .set ⟨hkey, rfl⟩ rfl⟩
  · refine ⟨_, memberIn_eq_ok.mpr (.inr (.inr (.inl ⟨hd, p, hp, rfl⟩))), ?_⟩
    rw [hkey]
    exact .permission _
  · exact ⟨_, memberIn_eq_ok.mpr (.inr (.inr (.inr ⟨hd, hp, s, hs, rfl⟩))), .set ⟨hkey, rfl⟩ rfl⟩

open Identifier

theorem setMember_same {node' : SetNode} (hsame : SameLookup node node') {perm : String}
    {ref : Reference} (h : setMember acl node perm = .ok ref) :
    ∃ ref', setMember acl node' perm = .ok ref' ∧ SameReference ref ref' := by
  cases hid : tryFrom perm with
  | error e =>
    simp only [setMember, hid] at h
    cases h
  | ok id =>
    have hinner := tryFrom_eq_ok.mp hid
    by_cases hk : ∀ k, id.getPrefix = some k → acl[k]? = none
    · rw [setMember_eq_of_local hinner hk, hsame.2] at h
      rw [setMember_eq_of_local hinner hk]
      exact memberIn_same hsame.1 h
    · simp only [not_forall] at hk
      obtain ⟨k, hknown, hsome⟩ := hk
      obtain ⟨manifest, hm⟩ := ne_none_iff_exists'.mp hsome
      rw [setMember_eq_of_known hinner hknown hm] at h
      rw [setMember_eq_of_known hinner hknown hm]
      exact memberIn_same rfl h

/-- **Sets are flattened by key and manifest**: how the node was reached plays no part. -/
theorem Flattens.of_same {node' : SetNode} {perms : List String} (h : Flattens acl node perms ts)
    (hsame : SameLookup node node') : Flattens acl node' perms ts := by
  induction h generalizing node' with
  | nil => exact .nil
  | nothing href _ ih =>
    obtain ⟨ref', href', href⟩ := setMember_same hsame href
    cases href
    exact .nothing href' (ih hsame)
  | permission href _ ih =>
    obtain ⟨ref', href', href⟩ := setMember_same hsame href
    cases href
    exact .permission href' (ih hsame)
  | set href _ _ ihset ih =>
    obtain ⟨ref', href', href⟩ := setMember_same hsame href
    cases href with
    | set hlookup hset => exact .set href' (hset ▸ ihset hlookup) (ih hsame)

/-! ### The two lookups -/

/-- A name in the position of a set member: a permission before a set. -/
def MemberYields (acl : Manifests) (permissionId : Identifier) (manifest : Manifest)
    (name : String) (ts : List TraversedPermission) : Prop :=
  (∃ p, manifest.permissions[name]? = some p ∧ ts = [⟨manifestKey permissionId, name, p⟩]) ∨
    (manifest.permissions[name]? = none ∧ ∃ s, manifest.permissionSets[name]? = some s ∧
      Flattens acl ⟨permissionId, manifest, s⟩ s.permissions ts)

theorem memberIn_flattens_iff {name set : String} (hname : name ≠ "default") :
    (∃ ref, memberIn permissionId manifest name set = .ok ref ∧ ref.Flattens acl ts) ↔
      MemberYields acl permissionId manifest name ts := by
  constructor
  · rintro ⟨ref, href, hts⟩
    rcases memberIn_eq_ok.mp href with ⟨hd, -⟩ | ⟨hd, -⟩ | ⟨-, p, hp, rfl⟩ | ⟨-, hp, s, hs, rfl⟩
    · exact absurd hd hname
    · exact absurd hd hname
    · exact .inl ⟨p, hp, hts⟩
    · exact .inr ⟨hp, s, hs, hts⟩
  · rintro (⟨p, hp, hts⟩ | ⟨hp, s, hs, hts⟩)
    · exact ⟨_, memberIn_eq_ok.mpr (.inr (.inr (.inl ⟨hname, p, hp, rfl⟩))), hts⟩
    · exact ⟨_, memberIn_eq_ok.mpr (.inr (.inr (.inr ⟨hname, hp, s, hs, rfl⟩))), hts⟩

theorem entryFlattens_name_iff (hm : acl[manifestKey id]? = some manifest)
    (hname : id.getBase ≠ "default") : EntryFlattens acl id ts ↔
      (∃ s, manifest.permissionSets[id.getBase]? = some s ∧
        Flattens acl ⟨id, manifest, s⟩ s.permissions ts) ∨
      (manifest.permissionSets[id.getBase]? = none ∧ ∃ p,
        manifest.permissions[id.getBase]? = some p ∧ ts = [⟨manifestKey id, id.getBase, p⟩]) := by
  rw [entryFlattens_iff]
  simp only [entryReference_eq_ok, hm, some.injEq, exists_eq_left']
  constructor
  · rintro ⟨ref, ⟨hd, -⟩ | ⟨hd, -⟩ | ⟨-, s, hs, rfl⟩ | ⟨-, hs, p, hp, rfl⟩, hts⟩
    · exact absurd hd hname
    · exact absurd hd hname
    · exact .inl ⟨s, hs, hts⟩
    · exact .inr ⟨hs, p, hp, hts⟩
  · rintro (⟨s, hs, hts⟩ | ⟨hs, p, hp, hts⟩)
    · exact ⟨_, .inr (.inr (.inl ⟨hname, s, hs, rfl⟩)), hts⟩
    · exact ⟨_, .inr (.inr (.inr ⟨hname, hs, p, hp, rfl⟩)), hts⟩

/-- The two lookups agree on a name exactly when a set that shares the name of a permission
yields that permission and nothing else. -/
theorem memberYields_iff_entryFlattens (hm : acl[manifestKey id]? = some manifest)
    (hname : id.getBase ≠ "default") :
    (∀ ts, MemberYields acl id manifest id.getBase ts ↔ EntryFlattens acl id ts) ↔
      ∀ p s, manifest.permissions[id.getBase]? = some p →
        manifest.permissionSets[id.getBase]? = some s →
        Flattens acl ⟨id, manifest, s⟩ s.permissions [⟨manifestKey id, id.getBase, p⟩] := by
  simp only [entryFlattens_name_iff hm hname, MemberYields]
  cases hp : manifest.permissions[id.getBase]? with
  | none => cases manifest.permissionSets[id.getBase]? <;> simp
  | some p =>
    cases hs : manifest.permissionSets[id.getBase]? with
    | none => simp
    | some s =>
      simp only [some.injEq, exists_eq_left', reduceCtorEq, false_and, or_false]
      constructor
      · rintro h p' s' rfl rfl
        exact (h _).mp rfl
      · intro h ts
        have hset := h p s rfl rfl
        exact ⟨fun hts => hts ▸ hset, fun hts => hts.unique hset⟩

theorem MemberYields.of_key {permissionId' : Identifier} {name : String}
    (h : MemberYields acl permissionId manifest name ts)
    (hkey : manifestKey permissionId = manifestKey permissionId') :
    MemberYields acl permissionId' manifest name ts := by
  rcases h with ⟨p, hp, hts⟩ | ⟨hp, s, hs, hts⟩
  · exact .inl ⟨p, hp, hkey ▸ hts⟩
  · exact .inr ⟨hp, s, hs, hts.of_same ⟨hkey, rfl⟩⟩

theorem yields_base_iff {sid : Identifier} {k : String} (hk : id.getPrefix = some k)
    (hm : acl[k]? = some manifest) (hname : id.getBase ≠ "default")
    (hset : entryReference sid acl = .ok (.set node)) (hkey : manifestKey sid = k)
    (honly : node.set.permissions = [id.getBase]) :
    Yields acl sid ts ↔ startsWith pluginPrefix id.getBase = false ∧
      MemberYields acl id manifest id.getBase ts := by
  have hdecl : node.permissionId = sid ∧ node.manifest = manifest := by
    obtain ⟨manifest', hm', hcases⟩ := entryReference_eq_ok.mp hset
    rw [hkey, hm] at hm'
    obtain rfl := some.inj hm'
    rcases hcases with ⟨-, -, h⟩ | ⟨-, _, -, h⟩ | ⟨-, _, -, h⟩ | ⟨-, -, _, -, h⟩
    · cases h
    · cases h
      exact ⟨rfl, rfl⟩
    · cases h
      exact ⟨rfl, rfl⟩
    · cases h
  rw [yields_iff, entryFlattens_iff]
  simp only [hset, Outcome.ok.injEq, exists_eq_left']
  rw [Reference.Flattens, honly, flattens_singleton]
  cases hplug : startsWith pluginPrefix id.getBase with
  | true =>
    -- the member is no identifier, and looking it up panics
    simp only [Bool.true_eq_false, false_and, iff_false]
    rintro ⟨ref, href, -⟩
    cases hparse : tryFrom id.getBase with
    | error e => simp [setMember, hparse] at href
    | ok base =>
      have hscan := base.scanned
      rw [tryFrom_eq_ok.mp hparse] at hscan
      simp [scanIdentifier, hplug] at hscan
  | false =>
    obtain ⟨base, hinner, hsep⟩ := id.exists_base hk hplug
    have hloc : ∀ k', base.getPrefix = some k' → acl[k']? = none := by
      simp [getPrefix, hsep]
    have hkey' : manifestKey sid = manifestKey id := by rw [hkey, manifestKey, hk, getD_some]
    rw [setMember_eq_of_local hinner hloc, memberIn_flattens_iff hname, hdecl.1, hdecl.2]
    exact ⟨fun h => ⟨rfl, h.of_key hkey'⟩, fun h => h.2.of_key hkey'.symm⟩

theorem yields_inner_iff {oid : Identifier} {k : String} (hk : id.getPrefix = some k)
    (hm : acl[k]? = some manifest) (hname : id.getBase ≠ "default")
    (hset : entryReference oid acl = .ok (.set node)) (honly : node.set.permissions = [id.inner]) :
    Yields acl oid ts ↔ MemberYields acl id manifest id.getBase ts := by
  rw [yields_iff, entryFlattens_iff]
  simp only [hset, Outcome.ok.injEq, exists_eq_left']
  rw [Reference.Flattens, honly, flattens_singleton, setMember_eq_of_known rfl hk hm,
    memberIn_flattens_iff hname]

/-- **When a name means the same in every position.** The entry `k:x`, a set of the manifest `k`
whose only member is `x` and a set whose only member is `k:x` yield the same lists exactly when a
set named `x` yields the permission of the same name and nothing else, and a name that starts with
`tauri-plugin-`, which no set may list, yields nothing. -/
theorem reference_transparent_iff {id sid oid : Identifier} {node onode : SetNode} {k : String}
    {manifest : Manifest} (hk : id.getPrefix = some k) (hm : acl[k]? = some manifest)
    (hname : id.getBase ≠ "default") (hset : entryReference sid acl = .ok (.set node))
    (hkey : manifestKey sid = k) (honly : node.set.permissions = [id.getBase])
    (hother : entryReference oid acl = .ok (.set onode))
    (hoonly : onode.set.permissions = [id.inner]) :
    (∀ ts, (Yields acl sid ts ↔ Yields acl id ts) ∧ (Yields acl oid ts ↔ Yields acl id ts)) ↔
      (∀ p s, manifest.permissions[id.getBase]? = some p →
        manifest.permissionSets[id.getBase]? = some s →
        Flattens acl ⟨id, manifest, s⟩ s.permissions [⟨k, id.getBase, p⟩]) ∧
      (startsWith pluginPrefix id.getBase = true → ¬ ∃ ts, EntryFlattens acl id ts) := by
  have hidkey : manifestKey id = k := by rw [manifestKey, hk, getD_some]
  have hagree := @memberYields_iff_entryFlattens acl id manifest (hidkey.symm ▸ hm) hname
  rw [hidkey] at hagree
  rw [← hagree]
  simp only [yields_base_iff hk hm hname hset hkey honly,
    yields_inner_iff hk hm hname hother hoonly, yields_iff]
  constructor <;> grind

end Yields

namespace Sample

def readNotes : Permission := { identifier := "read", commands := { allow := ["read"] } }

def listNotes : Permission := { identifier := "list", commands := { allow := ["list"] } }

def pluginNotes : Permission :=
  { identifier := "tauri-plugin-notes", commands := { allow := ["any"] } }

/-- A manifest in which `read` names a permission and a set. -/
def sharedNamesManifest : Manifest := Manifest.new
  [{ permission := [readNotes, listNotes, pluginNotes]
     set := [⟨"read", ["list"]⟩, ⟨"reader", ["read"]⟩, ⟨"lister", ["list"]⟩,
       ⟨"plugins", ["tauri-plugin-notes"]⟩] }]

/-- A manifest with sets that refer to another plugin. -/
def bundleManifest : Manifest := Manifest.new
  [{ set := [⟨"reader", ["notes:read"]⟩, ⟨"lister", ["notes:list"]⟩] }]

def sharedNamesAcl : Manifests :=
  ((∅ : Manifests).insert "notes" sharedNamesManifest).insert "bundle" bundleManifest

/-- An identifier of the notes plugin. -/
def notesId (inner : String) (h : scanIdentifier inner = .ok (some 5)) : Identifier :=
  ⟨inner, some 5, h⟩

/-- `list` names a permission only, and means the same everywhere. -/
theorem reference_transparent_list :
    Yields sharedNamesAcl (notesId "notes:list" (by decide))
      [⟨"notes", "list", listNotes⟩] ∧
    ∀ ts, (Yields sharedNamesAcl (notesId "notes:lister" (by decide)) ts ↔
        Yields sharedNamesAcl (notesId "notes:list" (by decide)) ts) ∧
      (Yields sharedNamesAcl ⟨"bundle:lister", some 6, by decide⟩ ts ↔
        Yields sharedNamesAcl (notesId "notes:list" (by decide)) ts) := by
  have hk : (notesId "notes:list" (by decide)).getPrefix = some "notes" := rfl
  have hbase : (notesId "notes:list" (by decide)).getBase = "list" := rfl
  have hm : sharedNamesAcl["notes"]? = some sharedNamesManifest := rfl
  have hset : entryReference (notesId "notes:lister" (by decide)) sharedNamesAcl =
      .ok (.set ⟨notesId "notes:lister" (by decide), sharedNamesManifest, ⟨"lister", ["list"]⟩⟩) :=
    rfl
  have hother : entryReference ⟨"bundle:lister", some 6, by decide⟩ sharedNamesAcl =
      .ok (.set ⟨⟨"bundle:lister", some 6, by decide⟩, bundleManifest,
        ⟨"lister", ["notes:list"]⟩⟩) := rfl
  have hnotSet : sharedNamesManifest.permissionSets["list"]? = none := rfl
  refine ⟨⟨0, rfl⟩,
    (reference_transparent_iff hk hm (by decide) hset rfl rfl hother rfl).mpr ⟨?_, ?_⟩⟩
  · simp_all
  · rw [hbase]
    exact fun hplug => absurd hplug (by decide)

/-- `read` names a permission and a set: the entry yields what the set lists, and a set with this
one member yields the permission. `tauri-plugin-notes` can be granted, and no set may list it. -/
theorem reference_depends_on_position :
    (∃ ts, Yields sharedNamesAcl (notesId "notes:reader" (by decide)) ts ∧
      Yields sharedNamesAcl ⟨"bundle:reader", some 6, by decide⟩ ts ∧
      ¬ Yields sharedNamesAcl (notesId "notes:read" (by decide)) ts) ∧
    (∃ ts, Yields sharedNamesAcl (notesId "notes:tauri-plugin-notes" (by decide)) ts ∧
      ¬ Yields sharedNamesAcl (notesId "notes:plugins" (by decide)) ts) := by
  refine ⟨⟨[⟨"notes", "read", readNotes⟩], ⟨1, rfl⟩, ⟨1, rfl⟩, ?_⟩,
    ⟨[⟨"notes", "tauri-plugin-notes", pluginNotes⟩], ⟨1, rfl⟩, ?_⟩⟩
  · intro h
    have hset : Yields sharedNamesAcl (notesId "notes:read" (by decide))
        [⟨"notes", "list", listNotes⟩] := ⟨2, rfl⟩
    have hname := congrArg (List.map TraversedPermission.permissionName)
      ((yields_iff.mp h).unique (yields_iff.mp hset))
    exact absurd hname (by decide)
  · rintro ⟨fuel, h⟩
    cases fuel <;> cases h

end Sample

end Tauri.Acl
