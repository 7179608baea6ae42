import Tauri.Acl.References
import Tauri.Ipc.AccessMessage

/-!
# Permission sets that refer to each other in a circle

Neither the resolver nor the search of the denial message remembers which sets it has entered.
Both are walks of a reference graph, so each returns exactly when it enters no infinite chain of
sets. What a walk enters depends on what it stops at: **a circle behind a reference that cannot
be resolved is never entered** by the resolver, and the search does not look behind a permission
that allows the command.

The resolver has a second way of not returning. It parses every member it looks at as an
identifier and panics on one that does not parse.
-/

namespace Tauri.Ipc

open Rust Acl

/-- The sets that the resolver enters from a permission entry form no infinite chain. -/
def EntryEnds (acl : Manifests) (permissionId : Identifier) : Prop :=
  ∀ node, entryReference permissionId acl = .ok (.set node) → Acc (setGraph acl).Enters node

/-- The members that the resolver looks at from a permission entry are identifiers. -/
def EntryParses (acl : Manifests) (permissionId : Identifier) : Prop :=
  ∀ node, entryReference permissionId acl = .ok (.set node) → ∀ node' perm,
    (setGraph acl).Visits node' node → (setGraph acl).LooksAt node' perm →
      ∃ id, Identifier.tryFrom perm = .ok id

/-- The sets that the search enters from a set form no infinite chain. -/
def SearchEnds (manifest : Manifest) (command : String) (set : PermissionSet) : Prop :=
  Acc (searchGraph manifest command).Enters set

variable {acl : Manifests}

theorem look_of_not_identifier {node : SetNode} {perm : String}
    (h : ¬ ∃ id, Identifier.tryFrom perm = .ok id) :
    ∃ msg, (setGraph acl).look node perm = .stop (.panic msg) := by
  cases hid : Identifier.tryFrom perm with
  | ok id => exact absurd ⟨id, hid⟩ h
  | error e =>
    refine ⟨"invalid identifier in permission set?", ?_⟩
    change lookOf (setMember acl node perm) = _
    simp only [setMember, hid, lookOf]

/-- The traversal of a set returns exactly when the walk ends and the members it looks at
parse. -/
theorem getPermissionSetPermissions_returns_iff {node : SetNode} :
    (∃ fuel, (∃ ts, getPermissionSetPermissions acl fuel node = .ok ts) ∨
        ∃ e, getPermissionSetPermissions acl fuel node = .err e) ↔
      Acc (setGraph acl).Enters node ∧ ∀ node' perm, (setGraph acl).Visits node' node →
        (setGraph acl).LooksAt node' perm → ∃ id, Identifier.tryFrom perm = .ok id := by
  have hwalk : ∀ fuel, ((∃ ts, getPermissionSetPermissions acl fuel node = .ok ts) ∨
      ∃ e, getPermissionSetPermissions acl fuel node = .err e) ↔
      ((setGraph acl).walk fuel node = .ok () ∨
        ∃ e, (setGraph acl).walk fuel node = .err (.error e)) := by
    intro fuel
    rw [← fate_getPermissionSetPermissions, Outcome.fate_eq_ok]
    exact or_congr_right (exists_congr fun e => Outcome.fate_eq_error.symm)
  simp only [hwalk]
  constructor
  · rintro ⟨fuel, hrets⟩
    refine ⟨?_, fun node' perm hvisits hlooks => ?_⟩
    · have hne : (setGraph acl).walk fuel node ≠ .outOfFuel := by grind
      exact Graph.acc_of_walk_returns hne
    · by_contra hid
      obtain ⟨msg, hlook⟩ := @look_of_not_identifier acl node' perm hid
      rcases hrets with hok | ⟨e, herr⟩
      · -- a walk that came to its end looked at no stop
        obtain ⟨m, hmem, hstop⟩ := hvisits.exists_hasStop hlooks.mem (.here hlook)
        exact Graph.not_hasStop_of_walk_eq_ok hok hmem hstop
      · -- the panic would be the verdict
        cases Graph.walk_eq_err_unique hvisits hlooks hlook herr
  · rintro ⟨hacc, hparse⟩
    obtain ⟨fuel, hne⟩ := Graph.exists_walk_returns_iff.mpr hacc
    refine ⟨fuel, ?_⟩
    cases hwalk : (setGraph acl).walk fuel node with
    | ok => exact .inl rfl
    | err f =>
      obtain ⟨node', perm, hvisits, hlooks, hlook⟩ := Graph.exists_visits_of_walk_eq_err hwalk
      obtain ⟨id, hid⟩ := hparse node' perm hvisits hlooks
      rcases lookOf_eq_stop hlook with ⟨e, -, rfl⟩ | ⟨msg, hmember, -⟩
      · exact .inr ⟨e, rfl⟩
      · rcases @setMember_returns acl node' _ _ hid with ⟨ref, h⟩ | ⟨e, h⟩ <;> simp [h] at hmember
    | panic msg => exact absurd hwalk Graph.walk_ne_panic
    | outOfFuel => exact absurd hwalk hne

/-- **When permission resolution returns.** `get_permissions` returns a list or an error exactly
when the sets it enters form no infinite chain and the members it looks at are identifiers;
`has_permissions_allowing_command` returns exactly when the sets it enters form no infinite
chain. -/
theorem permissionResolution_returns_iff (acl : Manifests) (permissionId : Identifier)
    (manifest : Manifest) (command : String) (set : PermissionSet) :
    ((∃ fuel, (∃ ts, getPermissions fuel permissionId acl = .ok ts) ∨
        ∃ e, getPermissions fuel permissionId acl = .err e) ↔
      EntryEnds acl permissionId ∧ EntryParses acl permissionId) ∧
    ((∃ fuel found, hasPermissionsAllowingCommand manifest command fuel set = .ok found) ↔
      SearchEnds manifest command set) := by
  constructor
  · rcases @entryReference_returns acl permissionId with ⟨ref, href⟩ | ⟨e, href⟩
    · cases ref with
      | nothing | permission t => simp [getPermissions, href, follow, EntryEnds, EntryParses]
      | set =>
        simp only [getPermissions, href, Outcome.ok_bind, follow, EntryEnds, EntryParses,
          Outcome.ok.injEq, Reference.set.injEq, forall_eq',
          getPermissionSetPermissions_returns_iff]
    · simp [getPermissions, href, EntryEnds, EntryParses]
  · simp only [exists_found_iff, SearchEnds, Graph.exists_walk_returns_iff]

namespace Sample

/-- A manifest with a set that contains itself, a default set that does, and a set with a member
that is no identifier. -/
def loopingManifest : Manifest where
  defaultPermission := some ⟨"default", ["default"]⟩
  permissionSets := ((∅ : BTreeMap String PermissionSet).insert "loop" ⟨"loop", ["loop"]⟩).insert
    "broken" ⟨"broken", ["not an identifier"]⟩

def loopingAcl : Manifests := (∅ : Manifests).insert "plugin" loopingManifest

theorem traversal_of_loop {node : SetNode} {perm : String} (hset : node.set.permissions = [perm])
    (hself : setMember loopingAcl node perm = .ok (.set node)) (fuel : Nat) :
    getPermissionSetPermissions loopingAcl fuel node = .outOfFuel := by
  induction fuel with
  | zero => rfl
  | succ fuel ih =>
    rw [getPermissionSetPermissions, hset, List.foldlM_cons, hself, Outcome.ok_bind, follow, ih]
    rfl

theorem search_of_loop (fuel : Nat) :
    hasPermissionsAllowingCommand loopingManifest "open" fuel ⟨"loop", ["loop"]⟩ = .outOfFuel := by
  induction fuel with
  | zero => rfl
  | succ fuel ih =>
    have hmem : ∀ search, memberAllowsCommand loopingManifest "open" search "loop" =
        search ⟨"loop", ["loop"]⟩ := fun _ => rfl
    rw [hasPermissionsAllowingCommand, List.foldlM_cons, if_neg Bool.false_ne_true, hmem, ih]
    rfl

def loopId : Identifier := ⟨"plugin:loop", some 6, by decide⟩

def defaultId : Identifier := ⟨"plugin:default", some 6, by decide⟩

def brokenId : Identifier := ⟨"plugin:broken", some 6, by decide⟩

/-- The entries `plugin:loop` and `plugin:default` are followed for ever, and so is the search
from the first of them; the entry `plugin:broken` panics. -/
theorem resolution_of_circles :
    (∀ fuel, getPermissions fuel loopId loopingAcl = .outOfFuel) ∧
    (∀ fuel, getPermissions fuel defaultId loopingAcl = .outOfFuel) ∧
    (∀ fuel, getPermissions (fuel + 1) brokenId loopingAcl =
      .panic "invalid identifier in permission set?") ∧
    ∀ fuel, hasPermissionsAllowingCommand loopingManifest "open" fuel ⟨"loop", ["loop"]⟩ =
      .outOfFuel := by
  have hloop : entryReference loopId loopingAcl =
      .ok (.set ⟨loopId, loopingManifest, ⟨"loop", ["loop"]⟩⟩) := rfl
  have hdef : entryReference defaultId loopingAcl =
      .ok (.set ⟨defaultId, loopingManifest, ⟨"default", ["default"]⟩⟩) := rfl
  refine ⟨fun fuel => ?_, fun fuel => ?_, fun _ => rfl, search_of_loop⟩
  · rw [getPermissions, hloop]
    exact traversal_of_loop rfl rfl fuel
  · rw [getPermissions, hdef]
    exact traversal_of_loop rfl rfl fuel

end Sample

end Tauri.Ipc
