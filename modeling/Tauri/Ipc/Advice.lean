import Tauri.Acl.CommandNames
import Tauri.Ipc.Access
import Tauri.Ipc.Cycles

/-!
# The advice of the denial message

When no capability mentions a command, the denial message of debug builds lists the permissions
associated with it. The list comes from a search of its own, which is not the traversal of the
resolver: it stays in one manifest, prefers sets to permissions, and knows neither platforms nor
denied commands. It also **writes the key of the plugin in front of a name**, which for a core
plugin is not the key of the manifest.

Both sides are described by what they reach. `FoundName` are the names that the search finds;
`Granting` says of a permission entry that a capability with it alone lets the command through.
The advice is usable exactly when the two agree (`advice_usable_iff`).
-/

namespace Tauri.Ipc

open Rust Acl List

/-- An identifier of the plugin, as a capability refers to it. -/
def qualified (key name : String) : String := if key = appAclKey then name else key ++ ":" ++ name

/-- The identifiers that the message lists. -/
def advisedPermissions (fuel : Nat) (acl : Manifests) (key commandName : String) :
    Outcome Error (List String) :=
  match acl[key]?.or acl["core:" ++ key]? with
  | none => .ok []
  | some manifest =>
    permissionsReferencingCommand fuel manifest commandName >>= fun permissions =>
      .ok (permissions.map (qualified key))

/-- The end of the message, for a list of identifiers. -/
def adviceText (acl : Manifests) (key : String) (permissions : List String) : String :=
  if acl[key]?.or acl["core:" ++ key]? matches none then "Plugin not found"
  else if (", ".intercalate permissions).isEmpty then "Command not found"
  else "Permissions associated with this command: " ++ ", ".intercalate permissions

theorem permissionErrorDetail_eq (fuel : Nat) (acl : Manifests) (key commandName : String) :
    permissionErrorDetail fuel acl key commandName =
      (advisedPermissions fuel acl key commandName >>= fun permissions =>
        .ok (adviceText acl key permissions)) := by
  unfold permissionErrorDetail advisedPermissions adviceText
  cases acl[key]?.or acl["core:" ++ key]? with
  | none => rfl
  | some manifest =>
    dsimp only
    cases permissionsReferencingCommand fuel manifest commandName <;> rfl

/-! ### What the search finds -/

/-- Following the sets of the manifest leads to a permission that allows the command. -/
inductive SetAllows (manifest : Manifest) (command : String) : PermissionSet → Prop
  | permission {set : PermissionSet} {permissionId : String} {p : Permission}
      (hmem : permissionId ∈ set.permissions) (hname : permissionId ≠ "default")
      (hset : manifest.permissionSets[permissionId]? = none)
      (hp : manifest.permissions[permissionId]? = some p) (hallow : command ∈ p.commands.allow) :
      SetAllows manifest command set
  | set {set refSet : PermissionSet} (hsearch : Searches manifest refSet set)
      (hallows : SetAllows manifest command refSet) : SetAllows manifest command set

/-- The names that the search finds in a manifest. -/
inductive FoundName (manifest : Manifest) (command : String) : String → Prop
  | default {set : PermissionSet} (hset : manifest.defaultPermission = some set)
      (hallows : SetAllows manifest command set) : FoundName manifest command "default"
  | set {name : String} {set : PermissionSet} (hset : manifest.permissionSets[name]? = some set)
      (hallows : SetAllows manifest command set) : FoundName manifest command set.identifier
  | permission {name : String} {p : Permission} (hp : manifest.permissions[name]? = some p)
      (hallow : command ∈ p.commands.allow) : FoundName manifest command p.identifier

/-- The search ends, whichever set of the manifest it starts from. -/
def ManifestEnds (manifest : Manifest) (command : String) : Prop :=
  ∀ set, manifest.Declares set → SearchEnds manifest command set

section Search

variable {manifest : Manifest} {command : String}

variable {set : PermissionSet}

theorem exists_hasStop_iff :
    (∃ permissionId ∈ set.permissions, (searchGraph manifest command).HasStop set permissionId) ↔
      SetAllows manifest command set := by
  constructor
  · rintro ⟨permissionId, hmem, hstop⟩
    induction hstop with
    | here hlook =>
      obtain ⟨hname, hset, p, hp, hallow⟩ := look_eq_stop.mp hlook
      exact .permission hmem hname hset hp hallow
    | enter hlook hmem' _ ih => exact .set ⟨_, hmem, look_eq_enter.mp hlook⟩ (ih hmem')
  · intro hallows
    induction hallows with
    | permission hmem hname hset hp hallow =>
      exact ⟨_, hmem, .here (look_eq_stop.mpr ⟨hname, hset, _, hp, hallow⟩)⟩
    | set hsearch _ ih =>
      obtain ⟨permissionId, hmem, href⟩ := hsearch
      obtain ⟨permissionId', hmem', hstop⟩ := ih
      exact ⟨permissionId, hmem, .enter (look_eq_enter.mpr href) hmem' hstop⟩

/-- **What the search answers**, when it returns. -/
theorem setAllows_of_search {fuel : Nat} {found : Bool}
    (h : hasPermissionsAllowingCommand manifest command fuel set = .ok found) :
    found = true ↔ SetAllows manifest command set := by
  have hwalk := @searchFate_hasPermissionsAllowingCommand manifest command fuel set
  rw [h] at hwalk
  rw [← exists_hasStop_iff]
  cases found with
  | true => exact iff_of_true rfl (Graph.hasStop_of_walk_eq_err hwalk.symm)
  | false =>
    refine iff_of_false Bool.false_ne_true ?_
    rintro ⟨permissionId, hmem, hstop⟩
    exact Graph.not_hasStop_of_walk_eq_ok hwalk.symm hmem hstop

theorem mem_searchedSets : set ∈ searchedSets manifest ↔ manifest.Declares set := by
  rw [searchedSets, mem_append, Option.mem_toList, BTreeMap.mem_vals]
  exact Iff.rfl

theorem exists_permissionsReferencingCommand_iff :
    (∃ fuel names, permissionsReferencingCommand fuel manifest command = .ok names) ↔
      ManifestEnds manifest command := by
  constructor
  · rintro ⟨fuel, names, h⟩ set hset
    obtain ⟨found, hfound⟩ := (permissionsReferencingCommand_eq_ok.mp h).1 set
      (mem_searchedSets.mpr hset)
    exact Graph.acc_of_walk_returns (exists_found_iff.mp ⟨found, hfound⟩)
  · intro hends
    exact (eventually_permissionsReferencingCommand fun set hset =>
      hends set (mem_searchedSets.mp hset)).exists

/-- **The list of the message** holds the names that the search finds. -/
theorem mem_permissionsReferencingCommand {fuel : Nat} {names : List String}
    (h : permissionsReferencingCommand fuel manifest command = .ok names) {name : String} :
    name ∈ names ↔ FoundName manifest command name := by
  obtain ⟨hrets, rfl⟩ := permissionsReferencingCommand_eq_ok.mp h
  have hhits : ∀ set, manifest.Declares set →
      (searchHits manifest command fuel set = true ↔ SetAllows manifest command set) := by
    intro set hset
    obtain ⟨found, hfound⟩ := hrets set (mem_searchedSets.mpr hset)
    rw [searchHits, hfound, Outcome.getD_ok, setAllows_of_search hfound]
  simp only [mem_insertionSort, mem_append, mem_map, mem_filter,
    Option.mem_toList, BTreeMap.mem_vals, contains_iff_mem]
  constructor
  · rintro ((⟨set, ⟨hset, hhit⟩, rfl⟩ | ⟨set, ⟨⟨k, hset⟩, hhit⟩, rfl⟩) |
      ⟨p, ⟨⟨k, hp⟩, hallow⟩, rfl⟩)
    · exact .default hset ((hhits set (.inl hset)).mp hhit)
    · exact .set hset ((hhits set (.inr ⟨k, hset⟩)).mp hhit)
    · exact .permission hp hallow
  · intro hfound
    cases hfound with
    | default hset hallows => exact .inl (.inl ⟨_, ⟨hset, (hhits _ (.inl hset)).mpr hallows⟩, rfl⟩)
    | set hset hallows =>
      exact .inl (.inr ⟨_, ⟨⟨_, hset⟩, (hhits _ (.inr ⟨_, hset⟩)).mpr hallows⟩, rfl⟩)
    | permission hp hallow => exact .inr ⟨_, ⟨⟨_, hp⟩, hallow⟩, rfl⟩

end Search

/-- The message lists the identifier. -/
def Listed (acl : Manifests) (key command identifier : String) : Prop :=
  ∃ fuel permissions, advisedPermissions fuel acl key command = .ok permissions ∧
    identifier ∈ permissions

theorem listed_iff {acl : Manifests} {key command identifier : String} :
    Listed acl key command identifier ↔
      ∃ manifest, acl[key]?.or acl["core:" ++ key]? = some manifest ∧
        ManifestEnds manifest command ∧
        ∃ name, FoundName manifest command name ∧ qualified key name = identifier := by
  unfold Listed advisedPermissions
  cases acl[key]?.or acl["core:" ++ key]? with
  | none => simp
  | some =>
    simp only [Outcome.bind_eq_ok, Option.some.injEq, exists_eq_left']
    constructor
    · rintro ⟨fuel, _, ⟨names, hnames, hmap⟩, hmem⟩
      obtain rfl := Outcome.ok.inj hmap
      obtain ⟨name, hname, rfl⟩ := mem_map.mp hmem
      exact ⟨exists_permissionsReferencingCommand_iff.mp ⟨fuel, names, hnames⟩, name,
        (mem_permissionsReferencingCommand hnames).mp hname, rfl⟩
    · rintro ⟨hends, name, hfound, rfl⟩
      obtain ⟨fuel, names, hnames⟩ := exists_permissionsReferencingCommand_iff.mpr hends
      exact ⟨fuel, _, ⟨names, hnames, rfl⟩,
        mem_map_of_mem ((mem_permissionsReferencingCommand hnames).mpr hfound)⟩

/-! ### What a permission entry grants -/

/-- The capability, for one permission entry. -/
def withPermission (base : Capability) (id : Identifier) : Capability :=
  { base with permissions := [.permissionRef id] }

def onlyPermission (base : Capability) (id : Identifier) : Capabilities :=
  (∅ : Capabilities).insert base.identifier (withPermission base id)

/-- The permission entry reaches an active permission that names the command string. -/
def EntryNames (acl : Manifests) (target : Target) (select : Commands → List String)
    (command : String) (id : Identifier) : Prop :=
  ∃ t, EntryReaches acl id t ∧ t.permission.isActive target = true ∧
    ∃ name ∈ select t.permission.commands, commandName t.key name = command

/-- The permission entry alone, under the resolver: its references are finite and known, it
reaches an active permission that allows the command string, and none that denies it. -/
structure Granting (acl : Manifests) (target : Target) (command : String) (id : Identifier) :
    Prop where
  resolves : ∃ ts, EntryFlattens acl id ts
  allows : EntryNames acl target (·.allow) command id
  notDenied : ¬ EntryNames acl target (·.deny) command id

section Usable

variable {G P : Type} (E : Patterns G P)

/-- Put in the capability, the identifier resolves without error and the request is allowed. -/
def Usable (acl : Manifests) (target : Target) (base : Capability)
    (command window webview : String) (origin : Origin) (identifier : String) : Prop :=
  ∃ id, Identifier.tryFrom identifier = .ok id ∧ ∃ r : Resolved G P,
    Resolves E acl (onlyPermission base id) target r ∧
    ∀ S : ScopeTypes, ((RuntimeAuthority.new acl r : RuntimeAuthority G P S).resolveAccess E command
      window webview origin).isSome

variable {E} {acl : Manifests} {target : Target} {base : Capability} {id : Identifier}

theorem mem_activeCapabilities_onlyPermission (hact : base.isActive target = true)
    {c : Capability} :
    c ∈ activeCapabilities (onlyPermission base id) target ↔ c = withPermission base id := by
  rw [mem_activeCapabilities]
  constructor
  · rintro ⟨⟨key, hkey⟩, -⟩
    rw [onlyPermission, Std.ExtTreeMap.getElem?_insert, Std.ExtTreeMap.getElem?_empty] at hkey
    split_ifs at hkey
    exact (Option.some.inj hkey).symm
  · rintro rfl
    exact ⟨⟨_, Std.ExtTreeMap.getElem?_insert_self⟩, hact⟩

theorem names_withPermission {select : Commands → List String} {command : String} :
    Names acl target (withPermission base id) select command ↔
      EntryNames acl target select command id := by
  simp only [Names, EntryNames, withPermission, mem_singleton, exists_eq_left,
    PermissionEntry.identifier]

theorem executionContexts_ne_nil {c : Capability} {origin : Origin}
    {contexts : List (ExecutionContext P)} (hok : executionContexts E c = .ok contexts)
    (h : ContextMatches E c origin) : contexts ≠ [] := by
  rcases h with ⟨hloc, -⟩ | ⟨url, hurl, pattern, hpat, -⟩
  · exact ne_nil_of_mem ((mem_executionContexts E hok).mpr (.inl ⟨hloc, rfl⟩))
  · exact ne_nil_of_mem
      ((mem_executionContexts E hok).mpr (.inr ⟨url, hurl, pattern, hpat, rfl⟩))

theorem identifier_onlyPermission (hact : base.isActive target = true)
    {ce : Capability × PermissionEntry}
    (hce : ce ∈ capabilityEntries (onlyPermission base id) target) : ce.2.identifier = id := by
  obtain ⟨hc, he⟩ := mem_capabilityEntries.mp hce
  rw [(mem_activeCapabilities_onlyPermission hact).mp hc] at he
  rw [mem_singleton.mp he, PermissionEntry.identifier]

section Applies

variable {command window webview : String} {origin : Origin}

theorem isSome_resolveAccess_onlyPermission {S : ScopeTypes}
    (hact : base.isActive target = true) (hpar : Parses E base)
    (happlies : AppliesTo E base window webview origin) {items : List Reached}
    (hitems : ReachedInOrder acl (onlyPermission base id) target items)
    (hres : ∀ it ∈ items, it.Resolvable E) :
    ((RuntimeAuthority.new acl (tables E items) : RuntimeAuthority G P S).resolveAccess E command
        window webview origin).isSome ↔
      EntryNames acl target (·.allow) command id ∧ ¬ EntryNames acl target (·.deny) command id := by
  have hmem := fun c => @mem_activeCapabilities_onlyPermission target base id hact c
  have hden : command ∈ (tables E items).deniedCommands ↔
      EntryNames acl target (·.deny) command id := by
    rw [← @names_withPermission acl target base]
    constructor
    · intro h
      obtain ⟨c, hc, hnames⟩ := exists_names_of_mem_deniedCommands E hitems h
      rwa [(hmem c).mp hc] at hnames
    · rintro ⟨entry, hent, t, hreach, hactive', hname⟩
      obtain ⟨contexts, hok, -⟩ := hpar
      have hctxs : executionContexts E (withPermission base id) = .ok contexts := hok
      refine (mem_deniedCommands_tables E).mpr ⟨⟨withPermission base id, entry, t⟩,
        hitems.mem_iff.mpr ⟨(hmem _).mpr rfl, hent, hreach, hactive'⟩, hname, ?_⟩
      rw [hctxs, Outcome.getD_ok]
      exact executionContexts_ne_nil hok happlies.1
  have hgrants : (∃ c ∈ activeCapabilities (onlyPermission base id) target,
      Grants E acl target c command window webview origin) ↔
        EntryNames acl target (·.allow) command id := by
    simp only [hmem, exists_eq_left, Grants, names_withPermission]
    exact and_iff_right happlies
  rw [isSome_resolveAccess_iff E hitems hres, hden, hgrants, and_comm]

/-- **What makes an identifier usable.** -/
theorem usable_iff (hact : base.isActive target = true) (hpar : Parses E base)
    (happlies : AppliesTo E base window webview origin) {identifier : String} :
    Usable E acl target base command window webview origin identifier ↔
      ∃ id, Identifier.tryFrom identifier = .ok id ∧ Granting acl target command id := by
  refine exists_congr fun id => and_congr_right fun _ => ?_
  constructor
  · rintro ⟨r, hr, hsome⟩
    obtain ⟨items, hitems, hres, rfl⟩ := (resolves_iff E).mp hr
    obtain ⟨hallow, hdeny⟩ := (isSome_resolveAccess_onlyPermission hact hpar happlies hitems
      hres).mp (hsome Sample.scopeTypes)
    obtain ⟨flat, hflat, -⟩ := hitems
    refine ⟨⟨flat id, ?_⟩, hallow, hdeny⟩
    exact hflat (withPermission base id, .permissionRef id) (mem_capabilityEntries.mpr
      ⟨(mem_activeCapabilities_onlyPermission hact).mpr rfl, mem_singleton_self _⟩)
  · rintro ⟨⟨ts, hts⟩, hallow, hdeny⟩
    obtain ⟨items, hitems⟩ : ∃ items, ReachedInOrder acl (onlyPermission base id) target items := by
      refine ⟨_, fun _ => ts, fun ce hce => ?_, rfl⟩
      rw [identifier_onlyPermission hact hce]
      exact hts
    have hres : ∀ it : Reached, it.capability ∈ activeCapabilities (onlyPermission base id) target →
        it.Resolvable E := by
      intro it hc _
      rw [(mem_activeCapabilities_onlyPermission hact).mp hc]
      exact hpar
    have hresolvable := fun it hit => hres it (hitems.mem_iff.mp hit).1
    refine ⟨_, (resolves_iff E).mpr ⟨_, hitems, hresolvable, rfl⟩, fun S => ?_⟩
    exact (isSome_resolveAccess_onlyPermission hact hpar happlies hitems hresolvable).mpr
      ⟨hallow, hdeny⟩

end Applies

end Usable

/-! ### When the advice is usable -/

/-- The manifest that the message is about, with its key. -/
def pluginManifest (acl : Manifests) (key : String) : Option (String × Manifest) :=
  (acl[key]?.map fun manifest => (key, manifest)).or
    (acl["core:" ++ key]?.map fun manifest => ("core:" ++ key, manifest))

/-- The names of the permissions and permission sets of a manifest. -/
def DeclaresName (manifest : Manifest) (name : String) : Prop :=
  (name = "default" ∧ manifest.defaultPermission.isSome = true) ∨
    manifest.permissionSets[name]?.isSome = true ∨ manifest.permissions[name]?.isSome = true

theorem exists_pluginManifest_iff {acl : Manifests} {key : String} {manifest : Manifest} :
    acl[key]?.or acl["core:" ++ key]? = some manifest ↔
      ∃ k, pluginManifest acl key = some (k, manifest) := by
  unfold pluginManifest
  cases acl[key]? with
  | some m => simp
  | none => cases acl["core:" ++ key]? <;> simp

/-- **The names that the search finds are those that grant the command.** A name is found under
the key of the plugin and declared under the key of its manifest. -/
structure AdviceFits (acl : Manifests) (target : Target) (key command : String) : Prop where
  found : ∀ k manifest, pluginManifest acl key = some (k, manifest) →
    ManifestEnds manifest command → ∀ name, FoundName manifest command name →
      ∃ id, Identifier.tryFrom (qualified key name) = .ok id ∧
        Granting acl target (messageCommand key command) id
  granting : ∀ k manifest, pluginManifest acl key = some (k, manifest) →
    ∀ name, DeclaresName manifest name → ∀ id, Identifier.tryFrom (qualified k name) = .ok id →
      Granting acl target (messageCommand key command) id → ManifestEnds manifest command ∧
        ∃ name', FoundName manifest command name' ∧ qualified key name' = qualified k name

section Advice

variable {G P : Type} {S : ScopeTypes} (T : Texts G P) (E : Patterns G P)

/-- Every identifier that the message lists is usable, and every usable identifier of the
manifest is listed. -/
structure AdviceUsable (acl : Manifests) (target : Target) (base : Capability)
    (key command window webview : String) (origin : Origin) : Prop where
  listed : ∀ identifier, Listed acl key command identifier →
    Usable E acl target base (messageCommand key command) window webview origin identifier
  usable : ∀ k manifest, pluginManifest acl key = some (k, manifest) →
    ∀ name, DeclaresName manifest name →
      Usable E acl target base (messageCommand key command) window webview origin
        (qualified k name) → Listed acl key command (qualified k name)

/-- **When the advice is usable.** The message for a command without entries ends with the list
of identifiers. For a capability that applies to the request, the list is exactly that of the
usable identifiers of the plugin when the search of the message and the resolver agree on the
manifest: the names that the search finds grant the command under the key of the plugin, and the
names that grant it under the key of the manifest are found. -/
theorem advice_usable_iff {a : RuntimeAuthority G P S} {key command window webview : String}
    {origin : Origin} (hdenied : a.deniedCommands[messageCommand key command]? = none)
    (hallowed : a.allowedCommands[messageCommand key command]? = none) {target : Target}
    {base : Capability} (hactive : base.isActive target = true) (hparses : Parses E base)
    (happlies : AppliesTo E base window webview origin) :
    (∀ fuel, a.resolveAccessMessage T E fuel key command window webview origin =
      (advisedPermissions fuel a.acl key command >>= fun permissions =>
        .ok ((if key = appAclKey then command else key ++ "." ++ command) ++ " not allowed. " ++
          adviceText a.acl key permissions))) ∧
    (AdviceUsable E a.acl target base key command window webview origin ↔
      AdviceFits a.acl target key command) := by
  constructor
  · intro fuel
    simp only [RuntimeAuthority.resolveAccessMessage, hdenied, hallowed, permissionErrorDetail_eq]
    cases advisedPermissions fuel a.acl key command <;> rfl
  · have husable := fun identifier => @usable_iff G P E a.acl target base
      (messageCommand key command) window webview origin hactive hparses happlies identifier
    constructor
    · rintro ⟨hlisted, hcomplete⟩
      refine ⟨fun k manifest hman hends name hfound => ?_,
        fun k manifest hman name hname id hid hgranting => ?_⟩
      · exact (husable _).mp (hlisted _ (listed_iff.mpr
          ⟨manifest, exists_pluginManifest_iff.mpr ⟨k, hman⟩, hends, name, hfound, rfl⟩))
      · obtain ⟨manifest', hman', hends, name', hfound, heq⟩ := listed_iff.mp
          (hcomplete k manifest hman name hname ((husable _).mpr ⟨id, hid, hgranting⟩))
        rw [exists_pluginManifest_iff.mpr ⟨k, hman⟩] at hman'
        obtain rfl := Option.some.inj hman'
        exact ⟨hends, name', hfound, heq⟩
    · rintro ⟨hfound, hgranting⟩
      refine ⟨fun identifier hlisted => ?_, fun k manifest hman name hname husable' => ?_⟩
      · obtain ⟨manifest, hman, hends, name, hname, rfl⟩ := listed_iff.mp hlisted
        obtain ⟨k, hk⟩ := exists_pluginManifest_iff.mp hman
        exact (husable _).mpr (hfound k manifest hk hends name hname)
      · obtain ⟨id, hid, hgrants⟩ := (husable _).mp husable'
        obtain ⟨hends, name', hname', heq⟩ := hgranting k manifest hman name hname id hid hgrants
        exact listed_iff.mpr ⟨manifest, exists_pluginManifest_iff.mpr ⟨k, hman⟩, hends, name',
          hname', heq⟩

end Advice

namespace Sample

/-- Globs and URL patterns as they are written; the URL plays no part. -/
def plainTexts : Texts String String := ⟨id, id, fun _ => "url"⟩

/-- A plugin with a default set, another set and one permission. -/
def plainPlugin : Manifest where
  defaultPermission := some ⟨"default", ["allow-read"]⟩
  permissions := (∅ : BTreeMap String Permission).insert "allow-read"
    { identifier := "allow-read", commands := { allow := ["read"] } }
  permissionSets := (∅ : BTreeMap String PermissionSet).insert "all" ⟨"all", ["allow-read"]⟩

def plainAcl : Manifests := (∅ : Manifests).insert "fs" plainPlugin

def fsAll : Identifier := ⟨"fs:all", some 2, by decide⟩

def fsAllowRead : Identifier := ⟨"fs:allow-read", some 2, by decide⟩

/-- An authority that no capability was resolved for. -/
def ungranted (acl : Manifests) : RuntimeAuthority String String scopeTypes := .new acl ⟨∅, ∅, ∅, ∅⟩

def mainWindow : Capability where
  identifier := "main"
  windows := ["main"]

theorem appliesTo_mainWindow : AppliesTo patterns mainWindow "main" "main" .local_ :=
  ⟨.inl ⟨rfl, rfl⟩, .inl ⟨"main", mem_singleton_self _, "main", rfl, rfl⟩⟩

theorem parses_mainWindow : Parses patterns mainWindow :=
  ⟨[.local_], rfl, fun _ => ⟨⟨["main"], rfl⟩, [], rfl⟩⟩

def allowRead : Permission :=
  { identifier := "allow-read", commands := { allow := ["read"] } }

theorem permissions_of_declares {set : PermissionSet} (h : plainPlugin.Declares set) :
    set.permissions = ["allow-read"] := by
  rcases h with h | ⟨name, h⟩
  · rw [← Option.some.inj h]
  · simp only [plainPlugin, Std.ExtTreeMap.getElem?_insert, Std.ExtTreeMap.getElem?_empty] at h
    split_ifs at h
    rw [← Option.some.inj h]

theorem manifestEnds_plainPlugin : ManifestEnds plainPlugin "read" := by
  refine fun set hset => ⟨_, fun refSet henters => ?_⟩
  obtain ⟨perm, hperm, href⟩ := searches_of_enters henters
  rw [permissions_of_declares hset, mem_singleton] at hperm
  subst hperm
  cases href

variable {name : String}

theorem declaresName_plainPlugin (h : DeclaresName plainPlugin name) :
    name = "default" ∨ name = "all" ∨ name = "allow-read" := by
  simp only [DeclaresName, plainPlugin, Std.ExtTreeMap.getElem?_insert,
    Std.ExtTreeMap.getElem?_empty] at h
  grind

theorem granting_of_flattens {id : Identifier}
    (h : EntryFlattens plainAcl id [⟨"fs", "allow-read", allowRead⟩]) :
    Granting plainAcl .linux (messageCommand "fs" "read") id := by
  refine ⟨⟨_, h⟩, ⟨_, h.mem_iff.mp (mem_singleton_self _), rfl, "read",
    mem_singleton_self _, rfl⟩, ?_⟩
  rintro ⟨t, ht, -, name, hname, -⟩
  rw [mem_singleton.mp (h.mem_iff.mpr ht)] at hname
  cases hname

theorem plainPlugin_cases (h : name = "default" ∨ name = "all" ∨ name = "allow-read") :
    FoundName plainPlugin "read" name ∧ ∃ id, Identifier.tryFrom (qualified "fs" name) = .ok id ∧
      Granting plainAcl .linux (messageCommand "fs" "read") id := by
  have hset : ∀ s : String, SetAllows plainPlugin "read" ⟨s, ["allow-read"]⟩ := fun _ =>
    .permission (mem_singleton_self _) (by decide) rfl rfl (mem_singleton_self _)
  rcases h with rfl | rfl | rfl
  · exact ⟨.default rfl (hset _), fsDefault, rfl, granting_of_flattens
      (.inr (.inr ⟨_, rfl, .permission rfl .nil⟩))⟩
  · exact ⟨@FoundName.set _ _ "all" _ rfl (hset "all"), fsAll, rfl, granting_of_flattens
      (.inr (.inr ⟨_, rfl, .permission rfl .nil⟩))⟩
  · exact ⟨@FoundName.permission plainPlugin _ "allow-read" allowRead rfl
      (mem_singleton_self _), fsAllowRead, rfl,
      granting_of_flattens (.inr (.inl ⟨_, rfl, rfl⟩))⟩

theorem foundName_plainPlugin (h : FoundName plainPlugin "read" name) :
    name = "default" ∨ name = "all" ∨ name = "allow-read" := by
  cases h with
  | default => exact .inl rfl
  | set hset =>
    simp only [plainPlugin, Std.ExtTreeMap.getElem?_insert, Std.ExtTreeMap.getElem?_empty] at hset
    split_ifs at hset
    exact .inr (.inl (congrArg PermissionSet.identifier (Option.some.inj hset)).symm)
  | permission hp =>
    simp only [plainPlugin, Std.ExtTreeMap.getElem?_insert, Std.ExtTreeMap.getElem?_empty] at hp
    split_ifs at hp
    exact .inr (.inr (congrArg Permission.identifier (Option.some.inj hp)).symm)

theorem adviceFits_plainPlugin : AdviceFits plainAcl .linux "fs" "read" := by
  have hown : ∀ k manifest, pluginManifest plainAcl "fs" = some (k, manifest) →
      "fs" = k ∧ plainPlugin = manifest := fun k manifest h => Prod.mk.inj (Option.some.inj h)
  refine ⟨fun k manifest hk _ name hfound => ?_, fun k manifest hk name hname id hid _ => ?_⟩
  · obtain ⟨-, rfl⟩ := hown k manifest hk
    exact (plainPlugin_cases (foundName_plainPlugin hfound)).2
  · obtain ⟨rfl, rfl⟩ := hown k manifest hk
    exact ⟨manifestEnds_plainPlugin, name,
      (plainPlugin_cases (declaresName_plainPlugin hname)).1, rfl⟩

/-- The advice about reading with the sample plugin is usable. -/
theorem advice_usable_read :
    AdviceUsable patterns plainAcl .linux mainWindow "fs" "read" "main" "main" .local_ ∧
    (ungranted plainAcl).resolveAccessMessage plainTexts patterns 1 "fs" "read" "main" "main"
      .local_ = .ok ("fs.read not allowed. Permissions associated with this command: " ++
        "fs:all, fs:allow-read, fs:default") := by
  obtain ⟨hmsg, hiff⟩ := @advice_usable_iff String String scopeTypes plainTexts patterns
    (ungranted plainAcl) "fs" "read" "main" "main" .local_ rfl rfl .linux mainWindow rfl
    parses_mainWindow appliesTo_mainWindow
  refine ⟨hiff.mpr adviceFits_plainPlugin, ?_⟩
  rw [hmsg]
  rfl

/-- A core plugin with one permission. -/
def closingWindow : Manifest where
  permissions := (∅ : BTreeMap String Permission).insert "allow-close"
    { identifier := "allow-close", commands := { allow := ["close"] } }

def closingAcl : Manifests := (∅ : Manifests).insert "core:window" closingWindow

def windowClose : Identifier := ⟨"window:allow-close", some 6, by decide⟩

def coreWindowClose : Identifier := ⟨"core:window:allow-close", some 11, by decide⟩

/-- The message about a command of a core plugin lists an identifier that no manifest has, and
does not list the one that allows the command. -/
theorem advice_about_core_plugin :
    (ungranted closingAcl).resolveAccessMessage plainTexts patterns 0 "window" "close" "main"
      "main" .local_ = .ok ("window.close not allowed. " ++
        "Permissions associated with this command: window:allow-close") ∧
    Listed closingAcl "window" "close" "window:allow-close" ∧
    ¬ Usable patterns closingAcl .linux mainWindow (messageCommand "window" "close") "main" "main"
      .local_ "window:allow-close" ∧
    Usable patterns closingAcl .linux mainWindow (messageCommand "window" "close") "main" "main"
      .local_ "core:window:allow-close" ∧
    ¬ Listed closingAcl "window" "close" "core:window:allow-close" := by
  have husable := fun identifier => @usable_iff String String patterns closingAcl .linux mainWindow
    (messageCommand "window" "close") "main" "main" .local_ rfl parses_mainWindow
    appliesTo_mainWindow identifier
  have hcore : entryReference coreWindowClose closingAcl = .ok (.permission ⟨"core:window",
      "allow-close", { identifier := "allow-close", commands := { allow := ["close"] } }⟩) := rfl
  refine ⟨rfl, ⟨0, ["window:allow-close"], rfl, mem_singleton_self _⟩, ?_, ?_, ?_⟩
  · rw [husable]
    rintro ⟨id, hid, ⟨ts, hts⟩, -, -⟩
    obtain rfl : windowClose = id := Except.ok.inj hid
    rcases hts with ⟨href, -⟩ | ⟨t, href, -⟩ | ⟨node, href, -⟩ <;> cases href
  · rw [husable]
    refine ⟨coreWindowClose, rfl, ⟨_, .inr (.inl ⟨_, hcore, rfl⟩)⟩,
      ⟨_, .inl hcore, rfl, "close", mem_singleton_self _, by decide⟩, ?_⟩
    rintro ⟨t, href | ⟨node, href, -⟩, -, name, hname, -⟩
    · simp_all
    · rw [hcore] at href
      cases href
  · rw [listed_iff]
    rintro ⟨manifest, -, -, name, -, hname⟩
    have hlist := congrArg String.toList hname
    rw [qualified, if_neg (by decide), String.toList_append, String.toList_append] at hlist
    exact absurd (cons.inj hlist).1 (by decide)

end Sample

end Tauri.Ipc
