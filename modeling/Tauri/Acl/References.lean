import Tauri.Acl.Traversal
import Tauri.Rust.Walk

/-!
# The reference graph of permission sets

The sets of an access control list and their members form a graph, and `get_permissions` walks it
depth first: `setGraph` instantiates the walks of the library, and
`fate_getPermissionSetPermissions` says that the traversal is such a walk, apart from the list it
builds. What is known of walks then decides when the traversal returns and when it fails.

Two facts are about the access control list itself. A `Declared` node carries the manifest of the
key that its members are looked up under, and following a reference from a declared node leads to
declared nodes only: **the key stays in step with the manifest**.
-/

namespace Tauri.Acl

open Rust

/-! ### Looking a member up -/

/-- The reference `permissionName` looked up in a manifest, for the set `set`: `default` first,
then the permissions, then the sets. -/
def memberIn (permissionId : Identifier) (manifest : Manifest) (permissionName set : String) :
    Outcome Error Reference :=
  if permissionName = "default" then
    match manifest.defaultPermission with
    | none => .ok .nothing
    | some default => .ok (.set ⟨permissionId, manifest, default⟩)
  else
    match manifest.permissions[permissionName]? with
    | some permission => .ok (.permission ⟨manifestKey permissionId, permissionName, permission⟩)
    | none =>
      match manifest.permissionSets[permissionName]? with
      | some set => .ok (.set ⟨permissionId, manifest, set⟩)
      | none => .err (.setPermissionNotFound permissionName set)

section Lookup

variable {acl : Manifests} {node : SetNode} {perm : String} {id : Identifier}

theorem setMember_eq_of_known (hid : id.inner = perm) {k : String} {manifest : Manifest}
    (hk : id.getPrefix = some k) (hm : acl[k]? = some manifest) :
    setMember acl node perm = memberIn id manifest id.getBase node.set.identifier := by
  obtain rfl : manifestKey id = k := by rw [manifestKey, hk, Option.getD_some]
  simp only [setMember, Identifier.tryFrom_eq_ok.mpr hid, hk, Option.bind_some, hm, Option.map_some]
  rfl

theorem setMember_eq_of_local (hid : id.inner = perm)
    (hk : ∀ k, id.getPrefix = some k → acl[k]? = none) :
    setMember acl node perm =
      memberIn node.permissionId node.manifest perm node.set.identifier := by
  have hnone : (id.getPrefix.bind fun k => acl[k]?.map fun m => (k, m)) = none := by simp_all
  simp only [setMember, Identifier.tryFrom_eq_ok.mpr hid, hnone]
  rfl

theorem setMember_eq_memberIn (hid : id.inner = perm) : ∃ permissionId manifest permissionName,
    setMember acl node perm =
      memberIn permissionId manifest permissionName node.set.identifier ∧
    ((id.getPrefix = some (manifestKey permissionId) ∧
        acl[manifestKey permissionId]? = some manifest) ∨
      (permissionId = node.permissionId ∧ manifest = node.manifest)) := by
  by_cases hk : ∀ k, id.getPrefix = some k → acl[k]? = none
  · exact ⟨_, _, _, setMember_eq_of_local hid hk, .inr ⟨rfl, rfl⟩⟩
  · simp only [not_forall] at hk
    obtain ⟨k, hknown, hsome⟩ := hk
    obtain ⟨manifest, hm⟩ := Option.ne_none_iff_exists'.mp hsome
    have hkey : manifestKey id = k := by rw [manifestKey, hknown, Option.getD_some]
    refine ⟨id, manifest, id.getBase, setMember_eq_of_known hid hknown hm, .inl ?_⟩
    rw [hkey]
    exact ⟨hknown, hm⟩

end Lookup

/-! ### Declared nodes -/

/-- The manifest declares the set, as its default or by a name. -/
def Manifest.Declares (manifest : Manifest) (set : PermissionSet) : Prop :=
  manifest.defaultPermission = some set ∨
    ∃ name : String, manifest.permissionSets[name]? = some set

/-- A set that the access control list declares: the manifest is the one of the key that the
members of the set are looked up under. -/
structure SetNode.Declared (acl : Manifests) (node : SetNode) : Prop where
  manifest : acl[manifestKey node.permissionId]? = some node.manifest
  set : node.manifest.Declares node.set

/-- The triple names its permission: it is the one that the manifest of its key declares under
its name. -/
def TraversedPermission.Declared (acl : Manifests) (t : TraversedPermission) : Prop :=
  ∃ manifest, acl[t.key]? = some manifest ∧
    manifest.permissions[t.permissionName]? = some t.permission

/-- What a reference stands for is declared. -/
def Reference.Declared (acl : Manifests) : Reference → Prop
  | .nothing => True
  | .permission t => t.Declared acl
  | .set node => node.Declared acl

section Declared

variable {acl : Manifests}

variable {ref : Reference}

theorem memberIn_eq_ok {permissionId : Identifier} {manifest : Manifest}
    {permissionName set : String} :
    memberIn permissionId manifest permissionName set = .ok ref ↔
      (permissionName = "default" ∧ manifest.defaultPermission = none ∧ ref = .nothing) ∨
      (permissionName = "default" ∧ ∃ default, manifest.defaultPermission = some default ∧
        ref = .set ⟨permissionId, manifest, default⟩) ∨
      (permissionName ≠ "default" ∧ ∃ p, manifest.permissions[permissionName]? = some p ∧
        ref = .permission ⟨manifestKey permissionId, permissionName, p⟩) ∨
      (permissionName ≠ "default" ∧ manifest.permissions[permissionName]? = none ∧
        ∃ s, manifest.permissionSets[permissionName]? = some s ∧
          ref = .set ⟨permissionId, manifest, s⟩) := by
  unfold memberIn
  by_cases hdef : permissionName = "default"
  · cases manifest.defaultPermission <;> simp [hdef, eq_comm]
  · cases manifest.permissions[permissionName]? <;>
      cases manifest.permissionSets[permissionName]? <;> simp [hdef, eq_comm]

theorem entryReference_eq_ok {id : Identifier} :
    entryReference id acl = .ok ref ↔ ∃ manifest, acl[manifestKey id]? = some manifest ∧
      ((id.getBase = "default" ∧ manifest.defaultPermission = none ∧ ref = .nothing) ∨
      (id.getBase = "default" ∧ ∃ default, manifest.defaultPermission = some default ∧
        ref = .set ⟨id, manifest, default⟩) ∨
      (id.getBase ≠ "default" ∧ ∃ s, manifest.permissionSets[id.getBase]? = some s ∧
        ref = .set ⟨id, manifest, s⟩) ∨
      (id.getBase ≠ "default" ∧ manifest.permissionSets[id.getBase]? = none ∧
        ∃ p, manifest.permissions[id.getBase]? = some p ∧
          ref = .permission ⟨manifestKey id, id.getBase, p⟩)) := by
  simp only [entryReference]
  cases acl[manifestKey id]? with
  | none => simp
  | some => grind

theorem memberIn_declared {permissionId : Identifier} {manifest : Manifest}
    (hm : acl[manifestKey permissionId]? = some manifest) {permissionName set : String}
    (h : memberIn permissionId manifest permissionName set = .ok ref) : ref.Declared acl := by
  rcases memberIn_eq_ok.mp h with ⟨-, -, rfl⟩ | ⟨-, default, hd, rfl⟩ | ⟨-, p, hp, rfl⟩ |
    ⟨-, -, s, hs, rfl⟩
  · trivial
  · exact ⟨hm, .inl hd⟩
  · exact ⟨manifest, hm, hp⟩
  · exact ⟨hm, .inr ⟨permissionName, hs⟩⟩

/-- **A member of a declared set stands for something declared.** -/
theorem setMember_declared {node : SetNode} (hnode : node.Declared acl) {perm : String}
    (h : setMember acl node perm = .ok ref) : ref.Declared acl := by
  cases hid : Identifier.tryFrom perm with
  | error e =>
    simp only [setMember, hid] at h
    cases h
  | ok id =>
    obtain ⟨permissionId, manifest, name, heq, hcases⟩ :=
      @setMember_eq_memberIn acl node _ _ (Identifier.tryFrom_eq_ok.mp hid)
    rw [heq] at h
    rcases hcases with ⟨-, hm⟩ | ⟨rfl, rfl⟩
    · exact memberIn_declared hm h
    · exact memberIn_declared hnode.manifest h

/-- **A permission entry stands for something declared.** -/
theorem entryReference_declared {id : Identifier} (h : entryReference id acl = .ok ref) :
    ref.Declared acl := by
  obtain ⟨manifest, hm, hcases⟩ := entryReference_eq_ok.mp h
  rcases hcases with ⟨-, -, rfl⟩ | ⟨-, default, hd, rfl⟩ | ⟨-, s, hs, rfl⟩ | ⟨-, -, p, hp, rfl⟩
  · trivial
  · exact ⟨hm, .inl hd⟩
  · exact ⟨hm, .inr ⟨id.getBase, hs⟩⟩
  · exact ⟨manifest, hm, hp⟩

end Declared

/-! ### The traversal is a walk -/

/-- What a member means to the traversal. Looking a member up takes no fuel, so the last case
does not occur. -/
def lookOf : Outcome Error Reference → Look SetNode (Failure Error)
  | .ok .nothing => .pass
  | .ok (.permission _) => .pass
  | .ok (.set node) => .enter node
  | .err e => .stop (.error e)
  | .panic msg => .stop (.panic msg)
  | .outOfFuel => .pass

/-- The graph that `get_permission_set_permissions` walks. -/
def setGraph (acl : Manifests) : Graph SetNode String (Failure Error) where
  members node := node.set.permissions
  look node perm := lookOf (setMember acl node perm)

section Walk

variable {acl : Manifests}

theorem memberIn_returns (permissionId : Identifier) (manifest : Manifest)
    (permissionName set : String) :
    (∃ ref, memberIn permissionId manifest permissionName set = .ok ref) ∨
      memberIn permissionId manifest permissionName set =
        .err (.setPermissionNotFound permissionName set) := by
  unfold memberIn
  by_cases hdef : permissionName = "default"
  · cases manifest.defaultPermission <;> simp [hdef]
  · cases manifest.permissions[permissionName]? <;>
      cases manifest.permissionSets[permissionName]? <;> simp [hdef]

variable {node : SetNode}

/-- **Only a member that is no identifier panics.** -/
theorem setMember_returns {perm : String} {id : Identifier}
    (hid : Identifier.tryFrom perm = .ok id) :
    (∃ ref, setMember acl node perm = .ok ref) ∨ ∃ e, setMember acl node perm = .err e := by
  obtain ⟨permissionId, manifest, name, heq, -⟩ :=
    @setMember_eq_memberIn acl node _ _ (Identifier.tryFrom_eq_ok.mp hid)
  rw [heq]
  exact (memberIn_returns permissionId manifest name _).imp_right fun h => ⟨_, h⟩

theorem setMember_ne_outOfFuel {perm : String} : setMember acl node perm ≠ .outOfFuel := by
  cases hid : Identifier.tryFrom perm with
  | error e => simp [setMember, hid]
  | ok id => rcases @setMember_returns acl node _ _ hid with ⟨ref, h⟩ | ⟨e, h⟩ <;> simp [h]

private theorem fate_follow {traverse : SetNode → Outcome Error (List TraversedPermission)}
    {walk : SetNode → Outcome (Failure Error) Unit} (h : ∀ node, (traverse node).fate = walk node)
    (node : SetNode) (perm : String) :
    (setMember acl node perm >>= follow traverse).fate =
      Graph.follow walk ((setGraph acl).look node perm) := by
  change _ = Graph.follow walk (lookOf (setMember acl node perm))
  cases hmem : setMember acl node perm with
  | ok ref =>
    cases ref with
    | nothing | permission t => rfl
    | set node' => exact h node'
  | err e | panic msg => rfl
  | outOfFuel => exact absurd hmem setMember_ne_outOfFuel

/-- **The traversal is a walk**, apart from the permissions it collects. -/
theorem fate_getPermissionSetPermissions (fuel : Nat) (node : SetNode) :
    (getPermissionSetPermissions acl fuel node).fate = (setGraph acl).walk fuel node := by
  induction fuel generalizing node with
  | zero => rfl
  | succ fuel ih =>
    -- the accumulator of the loop plays no part
    have hloop : ∀ (perms : List String) (acc : List TraversedPermission),
        (perms.foldlM (fun permissions perm =>
          (setMember acl node perm >>= follow (getPermissionSetPermissions acl fuel)) >>=
            fun found => .ok (permissions ++ found)) acc).fate =
        (setGraph acl).walkMembers ((setGraph acl).walk fuel) node perms := by
      intro perms
      induction perms with
      | nil => exact fun acc => rfl
      | cons perm perms ihperms =>
        intro acc
        rw [List.foldlM_cons, bind_assoc]
        refine (Outcome.fate_bind fun found => ihperms (acc ++ found)).trans ?_
        rw [fate_follow ih node perm]
        rfl
    exact hloop node.set.permissions []

theorem lookOf_eq_enter {x : Outcome Error Reference} :
    lookOf x = .enter node ↔ x = .ok (.set node) := by
  cases x with
  | ok ref => cases ref <;> simp [lookOf]
  | err e | panic msg | outOfFuel => simp [lookOf]

theorem lookOf_eq_stop {x : Outcome Error Reference} {f : Failure Error}
    (h : lookOf x = .stop f) : (∃ e, x = .err e ∧ f = .error e) ∨
      ∃ msg, x = .panic msg ∧ f = .panic msg := by
  cases x with
  | ok ref => cases ref <;> cases h
  | err e =>
    cases h
    exact .inl ⟨e, rfl, rfl⟩
  | panic msg =>
    cases h
    exact .inr ⟨msg, rfl, rfl⟩
  | outOfFuel => cases h

end Walk

/-! ### Well-founded references -/

/-- The sets that the access control list declares. -/
abbrev DeclaredSet (acl : Manifests) := {node : SetNode // node.Declared acl}

/-- Some member of the set `b` stands for the set `a`. -/
def Refers (acl : Manifests) (a b : DeclaredSet acl) : Prop :=
  ∃ perm ∈ b.1.set.permissions, setMember acl b.1 perm = .ok (.set a.1)

/-- The members of the declared sets are identifiers. -/
def MembersValid (acl : Manifests) : Prop :=
  ∀ node : DeclaredSet acl, ∀ perm ∈ node.1.set.permissions,
    ∃ id, Identifier.tryFrom perm = .ok id

/-- A reference that stands for nothing known is reached from the members of the set. -/
inductive SetUnresolvable (acl : Manifests) : SetNode → Prop
  | member {node : SetNode} {perm : String} {e : Error} (hperm : perm ∈ node.set.permissions)
      (href : setMember acl node perm = .err e) : SetUnresolvable acl node
  | set {node node' : SetNode} {perm : String} (hperm : perm ∈ node.set.permissions)
      (href : setMember acl node perm = .ok (.set node')) (hset : SetUnresolvable acl node') :
      SetUnresolvable acl node

/-- A reference that stands for nothing known is reached from the permission entry. -/
def EntryUnresolvable (acl : Manifests) (permissionId : Identifier) : Prop :=
  (∃ e, entryReference permissionId acl = .err e) ∨
    ∃ node, entryReference permissionId acl = .ok (.set node) ∧ SetUnresolvable acl node

section WellFounded

variable {acl : Manifests}

theorem acc_enters_of_declared (hwf : WellFounded (Refers acl)) (node : DeclaredSet acl) :
    Acc (setGraph acl).Enters node.1 := by
  induction node using hwf.induction with
  | h node ih =>
    refine .intro _ fun node' ⟨perm, hlooks, hlook⟩ => ?_
    have href : setMember acl node.1 perm = .ok (.set node') := lookOf_eq_enter.mp hlook
    exact ih ⟨node', setMember_declared node.2 href⟩ ⟨perm, hlooks.mem, href⟩

variable {node : SetNode}

theorem declared_of_visits {root : SetNode} (hvisits : (setGraph acl).Visits node root)
    (hroot : root.Declared acl) : node.Declared acl := by
  induction hvisits with
  | refl => exact hroot
  | tail _ henters ih =>
    obtain ⟨perm, -, hlook⟩ := henters
    exact ih (setMember_declared hroot (lookOf_eq_enter.mp hlook))

theorem exists_error_of_stop (hval : MembersValid acl) {perm : String} {f : Failure Error}
    (hlook : (setGraph acl).look node perm = .stop f) (hnode : node.Declared acl)
    (hperm : perm ∈ node.set.permissions) :
    ∃ e, setMember acl node perm = .err e ∧ f = .error e := by
  rcases lookOf_eq_stop hlook with ⟨e, href, hf⟩ | ⟨msg, href, -⟩
  · exact ⟨e, href, hf⟩
  · obtain ⟨id, hid⟩ := hval ⟨node, hnode⟩ perm hperm
    rcases @setMember_returns acl node _ _ hid with ⟨ref, h⟩ | ⟨e, h⟩ <;> simp [h] at href

/-- Where members are identifiers, a stop of the walk is a reference that cannot be resolved. -/
theorem setUnresolvable_of_hasStop (hval : MembersValid acl) {perm : String}
    (hstop : (setGraph acl).HasStop node perm) (hnode : node.Declared acl)
    (hperm : perm ∈ node.set.permissions) : SetUnresolvable acl node := by
  induction hstop with
  | here hlook =>
    obtain ⟨e, href, -⟩ := exists_error_of_stop hval hlook hnode hperm
    exact .member hperm href
  | enter hlook hmem _ ih =>
    have href := lookOf_eq_enter.mp hlook
    exact .set hperm href (ih (setMember_declared hnode href) hmem)

theorem SetUnresolvable.exists_hasStop (h : SetUnresolvable acl node) :
    ∃ perm ∈ node.set.permissions, (setGraph acl).HasStop node perm := by
  induction h with
  | @member node perm e hperm href => exact ⟨perm, hperm, .here (congrArg lookOf href)⟩
  | @set _ _ perm hperm href _ ih =>
    obtain ⟨perm', hperm', hstop⟩ := ih
    exact ⟨perm, hperm, .enter (congrArg lookOf href) hperm' hstop⟩

theorem SetReaches.declared {t : TraversedPermission} (hreach : SetReaches acl node t)
    (hnode : node.Declared acl) : t.Declared acl := by
  induction hreach with
  | permission _ href => exact setMember_declared hnode href
  | set _ href _ ih => exact ih (setMember_declared hnode href)

/-- **Every permission that is reached is declared** under its key and its name. -/
theorem EntryReaches.declared {id : Identifier} {t : TraversedPermission}
    (h : EntryReaches acl id t) : t.Declared acl := by
  rcases h with href | ⟨node, href, hreach⟩
  · exact entryReference_declared href
  · exact hreach.declared (entryReference_declared href)

theorem entryReference_returns (id : Identifier) :
    (∃ ref, entryReference id acl = .ok ref) ∨ ∃ e, entryReference id acl = .err e := by
  simp only [entryReference]
  cases acl[manifestKey id]? with
  | none => simp
  | some manifest =>
    dsimp only
    by_cases hdef : id.getBase = "default"
    · cases manifest.defaultPermission <;> simp [hdef]
    · cases manifest.permissions[id.getBase]? <;>
        cases manifest.permissionSets[id.getBase]? <;> simp [hdef]

/-- The traversal of a declared set returns, with an error exactly when a reference cannot be
resolved. -/
theorem exists_getPermissionSetPermissions_returns (hwf : WellFounded (Refers acl))
    (hval : MembersValid acl) (node : DeclaredSet acl) : ∃ fuel,
      (∃ e, getPermissionSetPermissions acl fuel node.1 = .err e ∧ SetUnresolvable acl node.1) ∨
        ∃ ts, getPermissionSetPermissions acl fuel node.1 = .ok ts ∧
          ¬ SetUnresolvable acl node.1 := by
  obtain ⟨fuel, hrets⟩ := Graph.exists_walk_returns_iff.mpr (acc_enters_of_declared hwf node)
  refine ⟨fuel, ?_⟩
  have hfate := @fate_getPermissionSetPermissions acl fuel node.1
  cases hwalk : (setGraph acl).walk fuel node.1 with
  | ok =>
    rw [hwalk, Outcome.fate_eq_ok] at hfate
    obtain ⟨ts, hts⟩ := hfate
    refine .inr ⟨ts, hts, fun hunres => ?_⟩
    obtain ⟨perm, hperm, hstop⟩ := hunres.exists_hasStop
    exact Graph.not_hasStop_of_walk_eq_ok hwalk hperm hstop
  | err f =>
    obtain ⟨perm, hperm, hstop⟩ := Graph.hasStop_of_walk_eq_err hwalk
    have hunres := setUnresolvable_of_hasStop hval hstop node.2 hperm
    obtain ⟨node', perm', hvisits, hlooks, hlook⟩ := Graph.exists_visits_of_walk_eq_err hwalk
    obtain ⟨e, -, rfl⟩ :=
      exists_error_of_stop hval hlook (declared_of_visits hvisits node.2) hlooks.mem
    rw [hwalk, Outcome.fate_eq_error] at hfate
    exact .inl ⟨e, hfate, hunres⟩
  | panic msg => exact absurd hwalk Graph.walk_ne_panic
  | outOfFuel => exact absurd hwalk hrets

/-- The traversal of an entry returns, with an error exactly when a reference cannot be
resolved. -/
theorem exists_getPermissions_returns (hwf : WellFounded (Refers acl)) (hval : MembersValid acl)
    (id : Identifier) : ∃ fuel,
      (∃ e, getPermissions fuel id acl = .err e ∧ EntryUnresolvable acl id) ∨
        ∃ ts, getPermissions fuel id acl = .ok ts ∧ ¬ EntryUnresolvable acl id := by
  rcases @entryReference_returns acl id with ⟨ref, href⟩ | ⟨e, href⟩
  · cases ref with
    | nothing => exact ⟨0, .inr ⟨[], by simp [getPermissions, href, follow],
        by simp [EntryUnresolvable, href]⟩⟩
    | permission t => exact ⟨0, .inr ⟨[t], by simp [getPermissions, href, follow],
        by simp [EntryUnresolvable, href]⟩⟩
    | set node =>
      obtain ⟨fuel, hrets⟩ := exists_getPermissionSetPermissions_returns hwf hval
        ⟨node, entryReference_declared href⟩
      refine ⟨fuel, ?_⟩
      simpa [getPermissions, href, follow, EntryUnresolvable] using hrets
  · exact ⟨0, .inl ⟨e, by simp [getPermissions, href], .inl ⟨e, href⟩⟩⟩

end WellFounded

namespace Sample

/-- A permission that allows one command. -/
def allowOpen : Permission := { identifier := "allow-open", commands := { allow := ["open"] } }

/-- The manifest of a plugin without references to other plugins. -/
def fsManifest : Manifest where
  defaultPermission := some ⟨"default", ["allow-open"]⟩
  permissions := (∅ : BTreeMap String Permission).insert "allow-open" allowOpen

/-- The manifest of a plugin whose default set includes the one of another plugin. -/
def dialogManifest : Manifest where
  defaultPermission := some ⟨"default", ["fs:default", "allow-open"]⟩
  permissions := (∅ : BTreeMap String Permission).insert "allow-open" allowOpen

def referringAcl : Manifests :=
  ((∅ : Manifests).insert "fs" fsManifest).insert "dialog" dialogManifest

def dialogDefault : Identifier := ⟨"dialog:default", some 6, by decide⟩

theorem getElem?_referringAcl {key : String} {manifest : Manifest}
    (h : referringAcl[key]? = some manifest) :
    manifest = fsManifest ∨ manifest = dialogManifest := by
  simp only [referringAcl, Std.ExtTreeMap.getElem?_insert, Std.ExtTreeMap.getElem?_empty] at h
  split_ifs at h
  · exact .inr (Option.some.inj h).symm
  · exact .inl (Option.some.inj h).symm

theorem declared_referringAcl {node : SetNode} (h : node.Declared referringAcl) :
    (node.manifest = fsManifest ∧ node.set = ⟨"default", ["allow-open"]⟩) ∨
      node.manifest = dialogManifest ∧ node.set = ⟨"default", ["fs:default", "allow-open"]⟩ := by
  rcases getElem?_referringAcl h.manifest with hm | hm
  · rcases h.set with hdef | ⟨name, hset⟩
    · rw [hm] at hdef
      exact .inl ⟨hm, (Option.some.inj hdef).symm⟩
    · rw [hm] at hset
      simp [fsManifest] at hset
  · rcases h.set with hdef | ⟨name, hset⟩
    · rw [hm] at hdef
      exact .inr ⟨hm, (Option.some.inj hdef).symm⟩
    · rw [hm] at hset
      simp [dialogManifest] at hset

theorem membersValid_referringAcl : MembersValid referringAcl := by
  have hopen : ∃ id, Identifier.tryFrom "allow-open" = .ok id :=
    ⟨⟨"allow-open", none, by decide⟩, rfl⟩
  rintro ⟨node, hnode⟩ perm hperm
  rcases declared_referringAcl hnode with ⟨-, hset⟩ | ⟨-, hset⟩
  · simp only [hset, List.mem_singleton] at hperm
    exact hperm ▸ hopen
  · simp only [hset, List.mem_cons, List.not_mem_nil, or_false] at hperm
    rcases hperm with rfl | rfl
    · exact ⟨⟨"fs:default", some 2, by decide⟩, rfl⟩
    · exact hopen

theorem wellFounded_referringAcl : WellFounded (Refers referringAcl) := by
  refine Subrelation.wf ?_ (measure fun node : DeclaredSet referringAcl =>
    node.1.set.permissions.length).wf
  rintro ⟨a, ha⟩ ⟨⟨permissionId, manifest, set⟩, hb⟩ ⟨perm, hperm, href⟩
  rcases declared_referringAcl hb with ⟨hm, hset⟩ | ⟨hm, hset⟩
  · obtain rfl : manifest = fsManifest := hm
    obtain rfl : set = ⟨"default", ["allow-open"]⟩ := hset
    obtain rfl : perm = "allow-open" := List.mem_singleton.mp hperm
    cases href
  · obtain rfl : manifest = dialogManifest := hm
    obtain rfl : set = ⟨"default", ["fs:default", "allow-open"]⟩ := hset
    obtain rfl | rfl : perm = "fs:default" ∨ perm = "allow-open" := by simpa using hperm
    · cases href
      exact Nat.lt_succ_self 1
    · cases href

example : (getPermissions 2 dialogDefault referringAcl).getD [] =
    [⟨"fs", "allow-open", allowOpen⟩, ⟨"dialog", "allow-open", allowOpen⟩] := rfl

end Sample

end Tauri.Acl
