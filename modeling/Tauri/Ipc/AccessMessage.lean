import Tauri.Ipc.Authority
import Tauri.Rust.Walk

/-!
# The denial message of debug builds

`resolveAccessMessage` explains why a request was refused: an explicit denial, an allowed command
whose entries do not apply, or the permissions that would allow it. The last case searches the
permission sets of the manifest. The search follows set references **without a visited set**, so
it is run with a fuel argument. It returns where the references are well founded
(`eventually_resolveAccessMessage`): it is a walk of the reference graph
(`searchFate_hasPermissionsAllowingCommand`), and on sets that refer to each other in a circle,
none of which allows the command, no fuel is enough.
-/

namespace Tauri.Ipc

open Rust Acl Filter Outcome

/-- The texts of globs, URL patterns and URLs. -/
structure Texts (G P : Type) where
  /-- `glob::Pattern::as_str`. -/
  glob : G → String
  /-- `RemoteUrlPattern::as_str`. -/
  urlPattern : P → String
  /-- `Url::as_str`. -/
  url : Url → String

variable {G P : Type} {S : ScopeTypes} (T : Texts G P) (E : Patterns G P)

/-- `impl Display for Origin`. -/
def Origin.display : Origin → String
  | .local_ => "local"
  | .remote url => "remote: " ++ T.url url

/-- `print_references`. -/
def printReferences (resolved : List (ResolvedCommand G P)) : String :=
  " || ".intercalate (resolved.map fun r =>
    "capability: " ++ r.referencedBy.capability ++ ", permission: " ++ r.referencedBy.permission)

/-- The list of the texts of globs, each between quotes. -/
def printGlobs (globs : List G) : String :=
  ", ".intercalate (globs.map fun w => "\"" ++ T.glob w ++ "\"")

/-- `print_allowed_on`. -/
def printAllowedOn (resolved : List (ResolvedCommand G P)) : String :=
  if resolved.isEmpty then "command not allowed on any window/webview/URL context"
  else
    "allowed on: " ++ ", ".intercalate (resolved.map fun cmd =>
      let windows := printGlobs T cmd.windows
      let webviews := printGlobs T cmd.webviews
      "[" ++ (if windows.isEmpty then "" else "windows: " ++ windows ++ ", ") ++
        (if webviews.isEmpty then "" else "webviews: " ++ webviews ++ ", ") ++
        (match cmd.context with
          | .local_ => "URL: local"
          | .remote url => "URL: " ++ T.urlPattern url) ++ "]")

/-- Whether one member of a set allows the command, given how sets are searched. Unlike the
resolver this looks references up in the one manifest only, and sets before permissions. -/
def memberAllowsCommand (manifest : Manifest) (command : String)
    (search : PermissionSet → Outcome Error Bool) (permissionId : String) : Outcome Error Bool :=
  if permissionId = "default" then
    match manifest.defaultPermission with
    | some default => search default
    | none => .ok false
  else
    match manifest.permissionSets[permissionId]? with
    | some refSet => search refSet
    | none =>
      match manifest.permissions[permissionId]? with
      | some permission => .ok (permission.commands.allow.contains command)
      | none => .ok false

/-- `has_permissions_allowing_command`, with at most `fuel` nested sets. -/
def hasPermissionsAllowingCommand (manifest : Manifest) (command : String) :
    Nat → PermissionSet → Outcome Error Bool
  | 0, _ => .outOfFuel
  | fuel + 1, set =>
    set.permissions.foldlM (fun found permissionId =>
      if found then .ok true
      else memberAllowsCommand manifest command
        (hasPermissionsAllowingCommand manifest command fuel) permissionId) false

/-- The identifiers of the manifest that allow the command, sorted. -/
def permissionsReferencingCommand (fuel : Nat) (manifest : Manifest) (command : String) :
    Outcome Error (List String) :=
  (match manifest.defaultPermission with
    | some default =>
      hasPermissionsAllowingCommand manifest command fuel default >>= fun found =>
        .ok (if found then ["default"] else [])
    | none => .ok []) >>= fun fromDefault =>
  manifest.permissionSets.vals.foldlM (fun acc set =>
    hasPermissionsAllowingCommand manifest command fuel set >>= fun found =>
      .ok (if found then acc ++ [set.identifier] else acc)) fromDefault >>= fun fromSets =>
  .ok ((fromSets ++ (manifest.permissions.vals.filter fun permission =>
    permission.commands.allow.contains command).map (·.identifier)).insertionSort (· ≤ ·))

/-- The advice at the end of the message. -/
def permissionErrorDetail (fuel : Nat) (acl : Manifests) (key commandName : String) :
    Outcome Error String :=
  match acl[key]?.or acl["core:" ++ key]? with
  | none => .ok "Plugin not found"
  | some manifest =>
    permissionsReferencingCommand fuel manifest commandName >>= fun permissions =>
      let associatedPermissions := ", ".intercalate (permissions.map fun p =>
        if key = appAclKey then p else key ++ ":" ++ p)
      .ok (if associatedPermissions.isEmpty then "Command not found"
        else "Permissions associated with this command: " ++ associatedPermissions)

/-- The command string the message is about. -/
def messageCommand (key commandName : String) : String :=
  if key = appAclKey then commandName else "plugin:" ++ key ++ "|" ++ commandName

namespace RuntimeAuthority

/-- `RuntimeAuthority::resolve_access_message`. After a failed lookup in the allowed commands the
source tests the result of the same lookup again; that branch is never taken and is left out. -/
def resolveAccessMessage (fuel : Nat) (a : RuntimeAuthority G P S)
    (key commandName window webview : String) (origin : Origin) : Outcome Error String :=
  let command := messageCommand key commandName
  let commandPrettyName := if key = appAclKey then commandName else key ++ "." ++ commandName
  match a.deniedCommands[command]? with
  | some resolved =>
    .ok (commandPrettyName ++ " explicitly denied on origin " ++ origin.display T ++
      "\n\nreferenced by: " ++ printReferences resolved)
  | none =>
    match a.allowedCommands[command]? with
    | some resolved =>
      let resolvedMatchingOrigin := resolved.filter fun cmd => origin.matches E cmd.context
      if resolvedMatchingOrigin.any
            (fun cmd => cmd.webviews.any fun w => E.globMatches w webview) ||
          resolvedMatchingOrigin.any (fun cmd => cmd.windows.any fun w => E.globMatches w window)
      then .ok "allowed"
      else .ok (commandPrettyName ++ " not allowed on window \"" ++ window ++ "\", webview \"" ++
        webview ++ "\", URL: " ++ (match origin with
          | .local_ => "local"
          | .remote url => T.url url) ++ "\n\n" ++ printAllowedOn T resolved ++
        "\n\nreferenced by: " ++ printReferences resolved)
    | none =>
      permissionErrorDetail fuel a.acl key commandName >>= fun detail =>
        .ok (commandPrettyName ++ " not allowed. " ++ detail)

end RuntimeAuthority

/-! ### Fuel -/

namespace RuntimeAuthority

end RuntimeAuthority

/-! ### Termination -/

/-- Searching the set `set` may search the set `refSet`. -/
def Searches (manifest : Manifest) (refSet set : PermissionSet) : Prop :=
  ∃ permissionId ∈ set.permissions,
    if permissionId = "default" then manifest.defaultPermission = some refSet
    else manifest.permissionSets[permissionId]? = some refSet

/-- No permission sets of a manifest refer to each other in a circle. -/
def SetsWellFounded (acl : Manifests) : Prop :=
  ∀ (key : String) manifest, acl[key]? = some manifest → WellFounded (Searches manifest)

section Termination

variable {manifest : Manifest} {command : String}

/-- The graph that `has_permissions_allowing_command` walks; it stops at a permission that allows
the command. -/
def searchGraph (manifest : Manifest) (command : String) : Graph PermissionSet String Unit where
  members set := set.permissions
  look _ permissionId :=
    if permissionId = "default" then
      match manifest.defaultPermission with
      | some default => .enter default
      | none => .pass
    else
      match manifest.permissionSets[permissionId]? with
      | some refSet => .enter refSet
      | none =>
        match manifest.permissions[permissionId]? with
        | some permission => if permission.commands.allow.contains command then .stop () else .pass
        | none => .pass

/-- A search as a walk: it stops when it has found the command. A search returns no error. -/
def searchFate : Outcome Error Bool → Outcome Unit Unit
  | .ok false => .ok ()
  | .ok true => .err ()
  | .err _ => .panic "the search failed"
  | .panic msg => .panic msg
  | .outOfFuel => .outOfFuel

private theorem searchFate_member {search : PermissionSet → Outcome Error Bool}
    {walk : PermissionSet → Outcome Unit Unit} (h : ∀ set, searchFate (search set) = walk set)
    (set : PermissionSet) (permissionId : String) :
    searchFate (memberAllowsCommand manifest command search permissionId) =
      Graph.follow walk ((searchGraph manifest command).look set permissionId) := by
  simp only [memberAllowsCommand, searchGraph]
  split_ifs with hdef
  · cases manifest.defaultPermission with
    | none => rfl
    | some default => exact h default
  · cases manifest.permissionSets[permissionId]? with
    | some refSet => exact h refSet
    | none =>
      cases manifest.permissions[permissionId]? with
      | none => rfl
      | some permission =>
        dsimp only
        cases permission.commands.allow.contains command <;> rfl

/-- **The search is a walk.** -/
theorem searchFate_hasPermissionsAllowingCommand (fuel : Nat) (set : PermissionSet) :
    searchFate (hasPermissionsAllowingCommand manifest command fuel set) =
      (searchGraph manifest command).walk fuel set := by
  induction fuel generalizing set with
  | zero => rfl
  | succ fuel ih =>
    have hloop : ∀ perms : List String,
        searchFate (perms.foldlM (fun found permissionId =>
          if found then .ok true
          else memberAllowsCommand manifest command
            (hasPermissionsAllowingCommand manifest command fuel) permissionId) false) =
        (searchGraph manifest command).walkMembers
          ((searchGraph manifest command).walk fuel) set perms := by
      intro perms
      induction perms with
      | nil => rfl
      | cons permissionId perms ihperms =>
        rw [List.foldlM_cons, if_neg Bool.false_ne_true, Graph.walkMembers,
          ← searchFate_member ih set permissionId]
        cases memberAllowsCommand manifest command
            (hasPermissionsAllowingCommand manifest command fuel) permissionId with
        | ok found =>
          cases found with
          | false => exact ihperms
          | true => rw [ok_bind, foldlM_search_true]; rfl
        | err e => rfl
        | panic msg => rfl
        | outOfFuel => rfl
    exact hloop set.permissions

variable {set : PermissionSet}

theorem exists_found_iff {fuel : Nat} :
    (∃ found, hasPermissionsAllowingCommand manifest command fuel set = .ok found) ↔
      (searchGraph manifest command).walk fuel set ≠ .outOfFuel := by
  have hfate := @searchFate_hasPermissionsAllowingCommand manifest command fuel set
  cases hsearch : hasPermissionsAllowingCommand manifest command fuel set with
  | ok found =>
    rw [hsearch] at hfate
    rw [← hfate]
    cases found <;> simp [searchFate]
  | err e | panic msg =>
    rw [hsearch] at hfate
    exact absurd hfate.symm Graph.walk_ne_panic
  | outOfFuel =>
    rw [hsearch] at hfate
    simp [← hfate, searchFate]

theorem look_eq_stop {permissionId : String} :
    (searchGraph manifest command).look set permissionId = .stop () ↔
      permissionId ≠ "default" ∧ manifest.permissionSets[permissionId]? = none ∧
        ∃ p, manifest.permissions[permissionId]? = some p ∧ command ∈ p.commands.allow := by
  simp only [searchGraph]
  by_cases hdef : permissionId = "default"
  · cases manifest.defaultPermission <;> simp [hdef]
  · grind

theorem look_eq_enter {refSet : PermissionSet} {permissionId : String} :
    (searchGraph manifest command).look set permissionId = .enter refSet ↔
      if permissionId = "default" then manifest.defaultPermission = some refSet
      else manifest.permissionSets[permissionId]? = some refSet := by
  simp only [searchGraph]
  by_cases hdef : permissionId = "default"
  · cases manifest.defaultPermission <;> simp [hdef]
  · grind

theorem searches_of_enters {refSet : PermissionSet}
    (h : (searchGraph manifest command).Enters refSet set) : Searches manifest refSet set := by
  obtain ⟨permissionId, hlooks, hlook⟩ := h
  exact ⟨permissionId, hlooks.mem, look_eq_enter.mp hlook⟩

/-- **The search returns** where references cannot be followed for ever. -/
theorem eventually_hasPermissionsAllowingCommand
    (h : Acc (searchGraph manifest command).Enters set) : ∀ᶠ fuel in atTop, ∃ found,
      hasPermissionsAllowingCommand manifest command fuel set = .ok found := by
  obtain ⟨n, hn⟩ := Graph.exists_walk_returns_iff.mpr h
  refine eventually_atTop.mpr ⟨n, fun fuel hle => exists_found_iff.mpr ?_⟩
  rw [(Graph.walk_mono hle set).eq_of_ne hn]
  exact hn

/-- Whether the search from the set has found the command, with this much fuel. -/
def searchHits (manifest : Manifest) (command : String) (fuel : Nat) (set : PermissionSet) : Bool :=
  (hasPermissionsAllowingCommand manifest command fuel set).getD false

/-- The sets of a manifest that the message searches. -/
def searchedSets (manifest : Manifest) : List PermissionSet :=
  manifest.defaultPermission.toList ++ manifest.permissionSets.vals

/-- **What the message lists**: it needs the answers of all searches, and collects the hits. -/
theorem permissionsReferencingCommand_eq_ok {fuel : Nat} {names : List String} :
    permissionsReferencingCommand fuel manifest command = .ok names ↔
      (∀ set ∈ searchedSets manifest, ∃ found,
        hasPermissionsAllowingCommand manifest command fuel set = .ok found) ∧
      names = ((manifest.defaultPermission.toList.filter
          (searchHits manifest command fuel)).map (fun _ => "default") ++
        (manifest.permissionSets.vals.filter
          (searchHits manifest command fuel)).map (·.identifier) ++
        (manifest.permissions.vals.filter fun permission =>
          permission.commands.allow.contains command).map (·.identifier)).insertionSort
            (· ≤ ·) := by
  have hsets : ∀ acc fromSets : List String, manifest.permissionSets.vals.foldlM (fun acc set =>
      hasPermissionsAllowingCommand manifest command fuel set >>= fun found =>
        .ok (if found then acc ++ [set.identifier] else acc)) acc = .ok fromSets ↔
      (∀ set ∈ manifest.permissionSets.vals, ∃ found,
        hasPermissionsAllowingCommand manifest command fuel set = .ok found) ∧
      fromSets = acc ++ (manifest.permissionSets.vals.filter
        (searchHits manifest command fuel)).map (·.identifier) := by
    intro acc fromSets
    rw [List.map_eq_flatMap, List.flatMap_def, ← List.foldl_append_eq_append, List.foldl_filter]
    refine foldlM_eq_ok_iff_foldl fun acc set acc' => ?_
    rw [bind_eq_ok, searchHits]
    cases hasPermissionsAllowingCommand manifest command fuel set with
    | ok =>
      simp only [ok.injEq, exists_eq_left', exists_eq', true_and, getD_ok]
      exact eq_comm
    | err e | panic msg | outOfFuel => simp
  have hdef : ∀ fromDefault : List String, (match manifest.defaultPermission with
      | some default =>
        hasPermissionsAllowingCommand manifest command fuel default >>= fun found =>
          .ok (if found then ["default"] else [])
      | none => .ok []) = .ok fromDefault ↔
      (∀ set ∈ manifest.defaultPermission.toList, ∃ found,
        hasPermissionsAllowingCommand manifest command fuel set = .ok found) ∧
      fromDefault = (manifest.defaultPermission.toList.filter
        (searchHits manifest command fuel)).map (fun _ => "default") := by
    intro fromDefault
    cases manifest.defaultPermission with
    | none => simp [eq_comm]
    | some default =>
      simp only [bind_eq_ok, Option.toList_some, List.mem_singleton, forall_eq,
        List.filter_singleton, searchHits]
      cases hasPermissionsAllowingCommand manifest command fuel default with
      | ok found => cases found <;> simp [eq_comm]
      | err e | panic msg | outOfFuel => simp
  simp only [permissionsReferencingCommand, bind_eq_ok, hdef, hsets, searchedSets,
    List.forall_mem_append]
  constructor
  · rintro ⟨_, ⟨hd, rfl⟩, _, ⟨hs, rfl⟩, hnames⟩
    exact ⟨⟨hd, hs⟩, (ok.inj hnames).symm⟩
  · rintro ⟨⟨hd, hs⟩, rfl⟩
    exact ⟨_, ⟨hd, rfl⟩, _, ⟨hs, rfl⟩, rfl⟩

theorem eventually_permissionsReferencingCommand
    (h : ∀ set ∈ searchedSets manifest, Acc (searchGraph manifest command).Enters set) :
    ∀ᶠ fuel in atTop, ∃ permissions,
      permissionsReferencingCommand fuel manifest command = .ok permissions := by
  have hsets := (eventually_all_finite (List.finite_toSet (searchedSets manifest))).mpr
    fun set hset => eventually_hasPermissionsAllowingCommand (h set hset)
  filter_upwards [hsets] with fuel hsets
  exact ⟨_, permissionsReferencingCommand_eq_ok.mpr ⟨hsets, rfl⟩⟩

theorem eventually_permissionErrorDetail {acl : Manifests} (h : SetsWellFounded acl)
    (key commandName : String) :
    ∀ᶠ fuel in atTop, ∃ detail, permissionErrorDetail fuel acl key commandName = .ok detail := by
  unfold permissionErrorDetail
  cases hman : acl[key]?.or acl["core:" ++ key]? with
  | none => exact .of_forall fun _ => ⟨_, rfl⟩
  | some manifest =>
    have hwf : WellFounded (Searches manifest) := by
      rcases Option.or_eq_some_iff.mp hman with hkey | ⟨-, hkey⟩ <;> exact h _ _ hkey
    have hends : ∀ set ∈ searchedSets manifest, Acc (searchGraph manifest commandName).Enters set :=
      fun set _ => Subrelation.accessible searches_of_enters (hwf.apply set)
    filter_upwards [eventually_permissionsReferencingCommand hends] with fuel hperms
    exact exists_bind_eq_ok hperms fun _ => ⟨_, rfl⟩

end Termination

namespace RuntimeAuthority

/-- **The message is computed**, where the permission sets are well founded. -/
theorem eventually_resolveAccessMessage {a : RuntimeAuthority G P S} (h : SetsWellFounded a.acl)
    (key commandName window webview : String) (origin : Origin) : ∀ᶠ fuel in atTop, ∃ message,
      a.resolveAccessMessage T E fuel key commandName window webview origin = .ok message := by
  filter_upwards [eventually_permissionErrorDetail h key commandName] with fuel hdetail
  unfold resolveAccessMessage
  dsimp only
  split
  · exact ⟨_, rfl⟩
  · split
    · exact ⟨_, (apply_ite ok _ _ _).symm⟩
    · exact exists_bind_eq_ok hdetail fun _ => ⟨_, rfl⟩

/-! ### The message of a refusal -/

end RuntimeAuthority

end Tauri.Ipc
