import Tauri.Ipc.Authority

/-!
# Who may call a command

The access decision, from the manifests and capabilities to the answer of `resolveAccess`. A
request is granted when an active capability **grants it** (`Grants`): one of its contexts matches
the origin, one of its globs matches a label, and one of its entries reaches an active permission
that allows the command. Where nothing denies the command the answer lists one entry for each way
of granting (`grantedEntries`).

A denied entry blocks its command whatever the origin; `denyOriginScoped_iff` says exactly when
this agrees with a deny list that applies to its own origin only.
-/

namespace Tauri.Ipc

open Rust Acl List RuntimeAuthority

variable {G P : Type} {S : ScopeTypes} (E : Patterns G P)

/-! ### The decision in terms of the tables -/

/-- The answer that lists the given entries: no entry is a refusal. -/
def answer {α : Type} (entries : List α) : Option (List α) :=
  if entries.isEmpty then none else some entries

variable {α : Type}

theorem isSome_answer {entries : List α} : (answer entries).isSome ↔ entries ≠ [] := by
  cases entries <;> simp [answer]

theorem answer_of_ne_nil {entries : List α} (h : entries ≠ []) : answer entries = some entries := by
  rw [answer, if_neg (mt List.isEmpty_iff.mp h)]

theorem getD_answer (entries : List α) : (answer entries).getD [] = entries := by
  cases entries <;> rfl

namespace RuntimeAuthority

/-- The entries that allow a command to the labels and the origin. -/
def allowedEntries (a : RuntimeAuthority G P S) (command window webview : String)
    (origin : Origin) : List (ResolvedCommand G P) :=
  (a.allowedCommands[command]?.getD []).filter (applies E window webview origin)

/-- The decision: a command with denied entries is refused, any other one is answered with the
entries that apply. -/
theorem resolveAccess_eq (a : RuntimeAuthority G P S) (command window webview : String)
    (origin : Origin) : a.resolveAccess E command window webview origin =
      if command ∈ a.deniedCommands then none
      else answer (a.allowedEntries E command window webview origin) := by
  have hden : (a.deniedCommands[command]?.map fun resolved =>
      resolved.any fun cmd => origin.matches E cmd.context).isSome = true ↔
      command ∈ a.deniedCommands := by
    rw [Option.isSome_map, Std.ExtTreeMap.mem_iff_isSome_getElem?]
  by_cases hmem : command ∈ a.deniedCommands
  · rw [resolveAccess, if_pos (hden.mpr hmem), if_pos hmem]
  · rw [resolveAccess, if_neg (mt hden.mp hmem), if_neg hmem, allowedEntries, answer]
    cases a.allowedCommands[command]? <;> rfl

end RuntimeAuthority

/-! ### When a capability grants a command -/

/-- A context of the capability matches the origin: its local flag, or one of its remote URL
patterns. -/
def ContextMatches (c : Capability) (origin : Origin) : Prop :=
  (c.local_ = true ∧ origin = .local_) ∨
    ∃ url ∈ c.remoteUrls, ∃ pattern, E.parseUrl url = .ok pattern ∧
      ∃ u, origin = .remote u ∧ E.testUrl pattern u = true

/-- One of the globs matches the label. -/
def LabelMatches (globs : List String) (label : String) : Prop :=
  ∃ pattern ∈ globs, ∃ g, E.newGlob pattern = .ok g ∧ E.globMatches g label = true

/-- The capability applies to the labels and the origin. -/
def AppliesTo (c : Capability) (window webview : String) (origin : Origin) : Prop :=
  ContextMatches E c origin ∧ (LabelMatches E c.windows window ∨ LabelMatches E c.webviews webview)

/-- The capability reaches an active permission that names the command in the given list. -/
def Names (acl : Manifests) (target : Target) (c : Capability)
    (select : Commands → List String) (command : String) : Prop :=
  ∃ entry ∈ c.permissions, ∃ t, EntryReaches acl entry.identifier t ∧
    t.permission.isActive target = true ∧
    ∃ name ∈ select t.permission.commands, commandName t.key name = command

/-- **The capability grants the command** to the labels and the origin. -/
def Grants (acl : Manifests) (target : Target) (c : Capability)
    (command window webview : String) (origin : Origin) : Prop :=
  AppliesTo E c window webview origin ∧ Names acl target c (·.allow) command

/-- Forgetting the scope id of an entry. -/
def withoutScope (rc : ResolvedCommand G P) : ResolvedCommand G P := { rc with scopeId := none }

/-- The entries, without scope ids, that a reached permission gives a request: one for each time
it allows the command and each matching context of the capability. -/
def entriesOf (command window webview : String) (origin : Origin) (it : Reached) :
    List (ResolvedCommand G P) :=
  (it.traversed.permission.commands.allow.filter
    fun name => commandName it.traversed.key name = command).flatMap fun _ =>
      (commandEntries E it.capability none it.traversed.permissionName).filter
        (RuntimeAuthority.applies E window webview origin)

/-- One entry for each entry of an active capability, active permission of its flattening, time
this permission allows the command, and matching context of the capability. -/
def grantedEntries (flat : Identifier → List TraversedPermission) (capabilities : Capabilities)
    (target : Target) (command window webview : String) (origin : Origin) :
    List (ResolvedCommand G P) :=
  (capabilityEntries capabilities target).flatMap fun ce =>
    ((flat ce.2.identifier).filter fun t => t.permission.isActive target).flatMap fun t =>
      entriesOf E command window webview origin ⟨ce.1, ce.2, t⟩

variable {target : Target} {items : List Reached} {command : String}

theorem mem_activeCapabilities {capabilities : Capabilities} {c : Capability} :
    c ∈ activeCapabilities capabilities target ↔
      (∃ key : String, capabilities[key]? = some c) ∧ c.isActive target = true := by
  rw [activeCapabilities, mem_filter, BTreeMap.mem_vals]

/-! ### From the tables to the capabilities -/

open Outcome

theorem exists_applies_iff {c : Capability} (hpar : Parses E c) (scopeId : Option ScopeKey)
    (name window webview : String) (origin : Origin) :
    (∃ rc ∈ commandEntries E c scopeId name,
      applies E window webview origin rc = true) ↔
      AppliesTo E c window webview origin := by
  obtain ⟨contexts, hctx, hglobs⟩ := hpar
  have hcontext : (∃ context ∈ contexts, origin.matches E context = true) ↔
      ContextMatches E c origin := by
    simp only [mem_executionContexts E hctx, ContextMatches]
    constructor
    · rintro ⟨_, (⟨hloc, rfl⟩ | ⟨url, hurl, pattern, hpat, rfl⟩), hmatch⟩
      · cases origin with
        | local_ => exact .inl ⟨hloc, rfl⟩
        | remote u => cases hmatch
      · cases origin with
        | local_ => cases hmatch
        | remote u => exact .inr ⟨url, hurl, pattern, hpat, u, rfl, hmatch⟩
    · rintro (⟨hloc, rfl⟩ | ⟨url, hurl, pattern, hpat, u, rfl, htest⟩)
      · exact ⟨.local_, .inl ⟨hloc, rfl⟩, rfl⟩
      · exact ⟨.remote pattern, .inr ⟨url, hurl, pattern, hpat, rfl⟩, htest⟩
  have hlbl : ∀ {raw : List String} {globs : List G} (label : String),
      parseGlobPatterns E raw = .ok globs →
        (globs.any (fun g => E.globMatches g label) = true ↔ LabelMatches E raw label) := by
    intro raw globs label hparse
    simp only [any_eq_true, mem_parseGlobPatterns E hparse, LabelMatches]
    constructor
    · rintro ⟨g, ⟨pattern, hpat, hg⟩, hmatch⟩
      exact ⟨pattern, hpat, g, hg, hmatch⟩
    · rintro ⟨pattern, hpat, g, hg, hmatch⟩
      exact ⟨g, ⟨pattern, hpat, hg⟩, hmatch⟩
  rw [AppliesTo, ← hcontext]
  simp only [commandEntries, hctx, getD_ok, mem_map, exists_exists_and_eq_and,
    applies, Bool.and_eq_true, Bool.or_eq_true]
  -- without a context both sides are false; with one, the globs parse
  rcases eq_or_ne contexts [] with rfl | hne
  · simp
  · obtain ⟨⟨windows, hwin⟩, webviews, hweb⟩ := hglobs hne
    rw [hwin, hweb, getD_ok, getD_ok, hlbl webview hweb, hlbl window hwin]
    constructor
    · rintro ⟨context, hmem, hmatch, hlbls⟩
      exact ⟨⟨context, hmem, hmatch⟩, hlbls.symm⟩
    · rintro ⟨⟨context, hmem, hmatch⟩, hlbls⟩
      exact ⟨context, hmem, hmatch, hlbls.symm⟩

private theorem map_withoutScope_filter (c : Capability) (scopeId : Option ScopeKey)
    (name window webview : String) (origin : Origin) :
    ((commandEntries E c scopeId name).filter
      (applies E window webview origin)).map withoutScope =
    (commandEntries E c none name).filter (applies E window webview origin) := by
  rw [commandEntries, commandEntries, filter_map, filter_map, map_map]
  rfl

/-- The entries that apply, among those of the tables, are the entries of the reached
permissions. -/
theorem map_withoutScope_tables (items : List Reached) (command window webview : String)
    (origin : Origin) :
    ((((tables E items).allowedCommands[command]?.getD []).filter
      (applies E window webview origin)).map withoutScope) =
      items.flatMap (entriesOf E command window webview origin) := by
  have hni : ∀ ni : Option ScopeKey × Reached,
      ((valuesAt command (commandPushes E (·.allow) ni)).filter
        (applies E window webview origin)).map withoutScope =
      entriesOf E command window webview origin ni.2 := by
    intro ni
    rw [valuesAt_commandPushes, filter_flatMap, map_flatMap]
    simp only [map_withoutScope_filter]
    rfl
  rw [getD_allowedCommands_tables, valuesAt_flatMap, filter_flatMap, map_flatMap]
  simp only [hni]
  conv_rhs => rw [← map_snd_numberFrom 0 items, flatMap_map]

/-- A table has entries for a command exactly when some reached permission names it and its
capability has an execution context. -/
theorem mem_commandPushes {select : Commands → List String} :
    (∃ rc, (command, rc) ∈ (numberFrom 0 items).flatMap (commandPushes E select)) ↔
      ∃ it ∈ items, (∃ name ∈ select it.traversed.permission.commands,
        commandName it.traversed.key name = command) ∧
        (executionContexts E it.capability).getD [] ≠ [] := by
  have hmem : ∀ it, it ∈ items ↔ ∃ id, (id, it) ∈ numberFrom 0 items := by
    intro it
    conv_lhs => rw [← map_snd_numberFrom 0 items]
    simp
  simp only [mem_flatMap, commandPushes, mem_map, Prod.mk.injEq, Prod.exists]
  constructor
  · rintro ⟨rc, id, it, hit, name, hname, rc', hrc', rfl, rfl⟩
    refine ⟨it, (hmem it).mpr ⟨id, hit⟩, ⟨name, hname, rfl⟩, fun hnil => ?_⟩
    simp [commandEntries, hnil] at hrc'
  · rintro ⟨it, hit, ⟨name, hname, rfl⟩, hne⟩
    obtain ⟨id, hid⟩ := (hmem it).mp hit
    obtain ⟨context, hctx⟩ := exists_mem_of_ne_nil _ hne
    exact ⟨_, id, it, hid, name, hname, _, mem_map_of_mem hctx, rfl, rfl⟩

/-- A reached permission gives a request an entry exactly when its capability applies and it
allows the command. -/
theorem entriesOf_ne_nil {it : Reached} (hres : it.Resolvable E)
    (command window webview : String) (origin : Origin) :
    entriesOf E command window webview origin it ≠ [] ↔
      AppliesTo E it.capability window webview origin ∧
        ∃ name ∈ it.traversed.permission.commands.allow,
          commandName it.traversed.key name = command := by
  have hpar : ∀ name ∈ it.traversed.permission.commands.allow, Parses E it.capability := by
    intro name hname
    refine hres ?_
    have hne : it.traversed.permission.commands.allow ≠ [] := ne_nil_of_mem hname
    simp [Reached.resolved, resolvedPermission, ResolvedPermission.isGlobal, hne]
  rw [entriesOf, ne_eq, flatMap_eq_nil_iff]
  simp only [mem_filter, decide_eq_true_eq, filter_eq_nil_iff, not_forall, not_not]
  constructor
  · rintro ⟨name, ⟨hname, hcmd⟩, rc, hrc, happlies⟩
    have happ := (exists_applies_iff E (hpar name hname) none it.traversed.permissionName
      window webview origin).mp ⟨rc, hrc, happlies⟩
    exact ⟨happ, name, hname, hcmd⟩
  · rintro ⟨happ, name, hname, hcmd⟩
    obtain ⟨rc, hrc, happlies⟩ := (exists_applies_iff E (hpar name hname) none
      it.traversed.permissionName window webview origin).mpr happ
    exact ⟨name, ⟨hname, hcmd⟩, rc, hrc, happlies⟩

/-- Some reached permission gives the request an entry exactly when an active capability grants
it. -/
theorem exists_entriesOf_iff {acl : Manifests} {capabilities : Capabilities}
    (hitems : ReachedInOrder acl capabilities target items) (hres : ∀ it ∈ items, it.Resolvable E)
    (command window webview : String) (origin : Origin) :
    items.flatMap (entriesOf E command window webview origin) ≠ [] ↔
      ∃ c ∈ activeCapabilities capabilities target,
        Grants E acl target c command window webview origin := by
  rw [ne_eq, flatMap_eq_nil_iff]
  push Not
  constructor
  · rintro ⟨it, hit, hne⟩
    obtain ⟨happ, hname⟩ := (entriesOf_ne_nil E (hres it hit) command window webview origin).mp hne
    obtain ⟨hc, he, hreach, hact⟩ := hitems.mem_iff.mp hit
    exact ⟨it.capability, hc, happ, it.entry, he, it.traversed, hreach, hact, hname⟩
  · rintro ⟨c, hc, happ, entry, he, t, hreach, hact, hname⟩
    have hit : ⟨c, entry, t⟩ ∈ items := hitems.mem_iff.mpr ⟨hc, he, hreach, hact⟩
    exact ⟨_, hit,
      (entriesOf_ne_nil E (hres _ hit) command window webview origin).mpr ⟨happ, hname⟩⟩

/-- A command has denied entries exactly when a reached permission denies it and its capability
has an execution context. -/
theorem mem_deniedCommands_tables :
    command ∈ (tables E items).deniedCommands ↔
      ∃ it ∈ items, (∃ name ∈ it.traversed.permission.commands.deny,
        commandName it.traversed.key name = command) ∧
        (executionContexts E it.capability).getD [] ≠ [] := by
  rw [← mem_commandPushes E]
  simp [tables, BTreeMap.pushAll, BTreeMap.mem_upsertAll]

theorem exists_names_of_mem_deniedCommands {acl : Manifests} {capabilities : Capabilities}
    (hitems : ReachedInOrder acl capabilities target items)
    (h : command ∈ (tables E items).deniedCommands) :
    ∃ c ∈ activeCapabilities capabilities target, Names acl target c (·.deny) command := by
  obtain ⟨it, hit, hname, -⟩ := (mem_deniedCommands_tables E).mp h
  obtain ⟨hc, he, hreach, hact⟩ := hitems.mem_iff.mp hit
  exact ⟨it.capability, hc, it.entry, he, it.traversed, hreach, hact, hname⟩

/-- A request is answered exactly when its command has no denied entries and an active capability
grants it. -/
theorem isSome_resolveAccess_iff {acl : Manifests} {capabilities : Capabilities}
    (hitems : ReachedInOrder acl capabilities target items) (hres : ∀ it ∈ items, it.Resolvable E)
    (command window webview : String) (origin : Origin) :
    ((new acl (tables E items) : RuntimeAuthority G P S).resolveAccess E command
        window webview origin).isSome ↔
      command ∉ (tables E items).deniedCommands ∧
        ∃ c ∈ activeCapabilities capabilities target,
          Grants E acl target c command window webview origin := by
  rw [resolveAccess_eq, ← exists_entriesOf_iff E hitems hres,
    ← map_withoutScope_tables, ne_eq, map_eq_nil_iff]
  by_cases hden : command ∈ (tables E items).deniedCommands
  · simp [new, hden]
  · simp [new, hden, isSome_answer, allowedEntries]

theorem flatMap_entriesOf (flat : Identifier → List TraversedPermission)
    (capabilities : Capabilities) (target : Target) (command window webview : String)
    (origin : Origin) :
    ((capabilityEntries capabilities target).flatMap fun ce =>
      reachedVia target ce (flat ce.2.identifier)).flatMap
        (entriesOf E command window webview origin) =
      grantedEntries E flat capabilities target command window webview origin := by
  rw [flatMap_assoc, grantedEntries]
  simp only [reachedVia, flatMap_map]

/-! ### A sample -/

namespace Sample

/-- Globs and URL patterns that match literally: a glob is a label or `*`, a URL pattern is a
scheme. -/
def patterns : Patterns String String where
  newGlob s := .ok s
  globMatches g label := g == "*" || g == label
  parseUrl s := .ok s
  testUrl pattern url := pattern == url.scheme

/-- One scope object type: strings. -/
def scopeTypes : ScopeTypes where
  Id := Unit
  decEq := inferInstance
  Obj _ := String
  deserialize _
    | .string s => .ok s
    | _ => .error "expected a string"

def read : Permission where
  identifier := "read"
  commands := { allow := ["read_file"] }

def denyRead : Permission where
  identifier := "deny-read"
  commands := { deny := ["read_file"] }

/-- A manifest whose `default` reaches `read` twice, directly and through the set `all`. -/
def fs : Manifest where
  defaultPermission := some ⟨"default", ["read", "all"]⟩
  permissions := (∅ : BTreeMap String Permission).insertMany
    [("read", read), ("deny-read", denyRead)]
  permissionSets := (∅ : BTreeMap String PermissionSet).insert "all" ⟨"all", ["read"]⟩

def acl : Manifests := (∅ : Manifests).insert "fs" fs

def fsDefault : Identifier := ⟨"fs:default", some 2, by decide⟩

def fsDenyRead : Identifier := ⟨"fs:deny-read", some 2, by decide⟩

/-- A local capability for the window `main`. -/
def main : Capability where
  identifier := "main"
  windows := ["main"]
  permissions := [.permissionRef fsDefault]

/-- A capability that denies reading to remote pages. -/
def noRemoteRead : Capability where
  identifier := "no-remote-read"
  local_ := false
  remote := some ⟨["https"]⟩
  windows := ["main"]
  permissions := [.permissionRef fsDenyRead]

def capabilities : Capabilities := (∅ : Capabilities).insert "main" main

/-- What `default` reaches through the entry of the capability. -/
def reached : Reached := ⟨main, .permissionRef fsDefault, ⟨"fs", "read", read⟩⟩

theorem fsDefault_flattens :
    EntryFlattens acl fsDefault [⟨"fs", "read", read⟩, ⟨"fs", "read", read⟩] := by
  have hget : getPermissions 2 fsDefault acl = .ok [⟨"fs", "read", read⟩, ⟨"fs", "read", read⟩] :=
    rfl
  exact entryFlattens_of_getPermissions hget

end Sample

open Sample

private theorem sample_reached {it : Reached}
    (hc : it.capability ∈ activeCapabilities Sample.capabilities .linux)
    (he : it.entry ∈ it.capability.permissions)
    (hreach : EntryReaches Sample.acl it.entry.identifier it.traversed) : it = Sample.reached := by
  obtain ⟨c, entry, t⟩ := it
  have hcaps : activeCapabilities capabilities .linux = [main] := rfl
  rw [hcaps] at hc
  obtain rfl := mem_singleton.mp hc
  obtain rfl := mem_singleton.mp he
  have ht := fsDefault_flattens.mem_iff.mpr hreach
  simp only [mem_cons, not_mem_nil, or_false, or_self] at ht
  rw [ht]
  rfl

theorem sample_not_denied : ∀ c ∈ activeCapabilities Sample.capabilities .linux,
    ¬ Names Sample.acl .linux c (·.deny) "plugin:fs|read_file" := by
  rintro c hc ⟨entry, he, t, hreach, -, name, hname, -⟩
  have hit := @sample_reached ⟨c, entry, t⟩ hc he hreach
  cases hit
  cases hname

/-! ### Soundness and completeness of the decision -/

/-- **Access is granted by capabilities only, and by every capability.** For resolved tables:
a request is answered only if an active capability grants it; and if one does and no active
permission that an active capability reaches denies the command, the answer has one entry for
each capability entry, occurrence of a permission in its flattening, occurrence of the command
among those this permission allows, and matching context. -/
theorem resolveAccess_sound_and_complete {acl : Manifests} {capabilities : Capabilities}
    {target : Target} {r : Resolved G P} (hr : Resolves E acl capabilities target r)
    (command window webview : String) (origin : Origin) :
    (((RuntimeAuthority.new acl r : RuntimeAuthority G P S).resolveAccess E command window webview
        origin).isSome →
      ∃ c ∈ activeCapabilities capabilities target,
        Grants E acl target c command window webview origin) ∧
    ((∃ c ∈ activeCapabilities capabilities target,
        Grants E acl target c command window webview origin) →
      (∀ c ∈ activeCapabilities capabilities target, ¬ Names acl target c (·.deny) command) →
      ∃ flat : Identifier → List TraversedPermission,
        (∀ ce ∈ capabilityEntries capabilities target,
          EntryFlattens acl ce.2.identifier (flat ce.2.identifier)) ∧
        ∃ cmds, (RuntimeAuthority.new acl r : RuntimeAuthority G P S).resolveAccess E command
            window webview origin = some cmds ∧
          cmds.map withoutScope =
            grantedEntries E flat capabilities target command window webview origin) := by
  obtain ⟨items, hitems, hres, rfl⟩ := (resolves_iff E).mp hr
  refine ⟨fun hsome => ?_, ?_⟩
  · exact ((isSome_resolveAccess_iff E hitems hres command window webview origin).mp hsome).2
  · intro hgrant hdeny
    have hgrants := exists_entriesOf_iff E hitems hres command window webview origin
    have hents := map_withoutScope_tables E items command window webview origin
    have hden : command ∉ (tables E items).deniedCommands := by
      intro hmem
      obtain ⟨c, hc, hnames⟩ := exists_names_of_mem_deniedCommands E hitems hmem
      exact hdeny c hc hnames
    have hne := hgrants.mpr hgrant
    obtain ⟨flat, hflat, rfl⟩ := hitems
    rw [flatMap_entriesOf] at hents hne
    refine ⟨flat, hflat, _, ?_, hents⟩
    have hallow := fun hnil => hne (hents.symm.trans (map_eq_nil_iff.mpr hnil))
    rw [resolveAccess_eq]
    exact (if_neg hden).trans (answer_of_ne_nil hallow)

/-- The sample grants reading to its own window. -/
theorem sample_read_granted : ∃ (r : Resolved String String) (flat : Identifier → _) (cmds : _),
    Resolves Sample.patterns Sample.acl Sample.capabilities .linux r ∧
    (RuntimeAuthority.new Sample.acl r : RuntimeAuthority _ _ Sample.scopeTypes).resolveAccess
      Sample.patterns "plugin:fs|read_file" "main" "main" .local_ = some cmds ∧
    cmds.map withoutScope = grantedEntries Sample.patterns flat Sample.capabilities .linux
      "plugin:fs|read_file" "main" "main" .local_ := by
  have hok : (Resolved.resolve patterns 2 acl capabilities .linux).isOk =
    true := by decide
  obtain ⟨r, hr⟩ := isOk_iff.mp hok
  have hmem : main ∈ activeCapabilities capabilities .linux := mem_singleton_self _
  have happlies : AppliesTo patterns main "main" "main" .local_ :=
    ⟨.inl ⟨rfl, rfl⟩, .inl ⟨"main", mem_singleton_self _, "main", rfl, rfl⟩⟩
  have hnames : Names acl .linux main (·.allow) "plugin:fs|read_file" :=
    ⟨.permissionRef fsDefault, mem_singleton_self _, ⟨"fs", "read", read⟩,
      fsDefault_flattens.mem_iff.mp mem_cons_self, rfl, "read_file",
      mem_singleton_self _, by decide⟩
  obtain ⟨flat, -, cmds, hcmds, hents⟩ :=
    (resolveAccess_sound_and_complete patterns ⟨2, hr⟩ "plugin:fs|read_file" "main" "main"
      .local_).2 ⟨main, hmem, happlies, hnames⟩ sample_not_denied
  exact ⟨r, flat, cmds, ⟨2, hr⟩, hcmds, hents⟩

/-- In the sample, the answer lists two entries where only one triple of a capability entry, a
permission and a context grants the command. -/
theorem sample_two_entries_for_one_triple : ∃ r cmds,
    Resolves Sample.patterns Sample.acl Sample.capabilities .linux r ∧
    (RuntimeAuthority.new Sample.acl r : RuntimeAuthority _ _ Sample.scopeTypes).resolveAccess
      Sample.patterns "plugin:fs|read_file" "main" "main" .local_ = some cmds ∧
    cmds.length = 2 ∧
    (∀ c ∈ activeCapabilities Sample.capabilities .linux,
      ¬ Names Sample.acl .linux c (·.deny) "plugin:fs|read_file") ∧
    ∀ (it : Reached) (context : ExecutionContext String),
      it.capability ∈ activeCapabilities Sample.capabilities .linux →
      it.entry ∈ it.capability.permissions →
      EntryReaches Sample.acl it.entry.identifier it.traversed →
      context ∈ (executionContexts Sample.patterns it.capability).getD [] →
      it = Sample.reached ∧ context = .local_ := by
  have hrun : ((Resolved.resolve patterns 2 acl capabilities .linux) >>=
      fun r => .ok (((new acl r :
        RuntimeAuthority _ _ scopeTypes).resolveAccess patterns
          "plugin:fs|read_file" "main" "main" .local_).map length)) = .ok (some 2) := by
    decide
  obtain ⟨r, hr, hlength⟩ := bind_eq_ok.mp hrun
  obtain ⟨cmds, hcmds, hlen⟩ := Option.map_eq_some_iff.mp (ok.inj hlength)
  refine ⟨r, cmds, ⟨2, hr⟩, hcmds, hlen, sample_not_denied, fun it context hc he hreach hctx => ?_⟩
  obtain rfl := sample_reached hc he hreach
  exact ⟨rfl, mem_singleton.mp hctx⟩

/-! ### Denied commands and origins -/

/-- The deny list applies to its own origins: a denied entry that matches the origin refuses the
request, and where none matches the request is answered as if the command were not denied. -/
def DenyOriginScoped (a : RuntimeAuthority G P S) (command window webview : String)
    (origin : Origin) : Prop :=
  let denied := a.deniedCommands[command]?.getD []
  ((∃ cmd ∈ denied, origin.matches E cmd.context = true) →
    a.resolveAccess E command window webview origin = none) ∧
  ((∀ cmd ∈ denied, origin.matches E cmd.context = false) →
    a.resolveAccess E command window webview origin =
      ({ a with deniedCommands := a.deniedCommands.erase command } :
        RuntimeAuthority G P S).resolveAccess E command window webview origin)

instance [DecidableEq G] [DecidableEq P] (a : RuntimeAuthority G P S)
    (command window webview : String) (origin : Origin) :
    Decidable (DenyOriginScoped E a command window webview origin) :=
  inferInstanceAs (Decidable ((_ → _) ∧ (_ → _)))

/-- **When denying is scoped to the origin**: the command has no denied entries, one of them
matches the origin, or no allowed entry applies to the request anyway. In every other case a
denied entry for another origin refuses a request that would be granted. -/
theorem denyOriginScoped_iff (a : RuntimeAuthority G P S) (command window webview : String)
    (origin : Origin) : DenyOriginScoped E a command window webview origin ↔
      command ∉ a.deniedCommands ∨
      (∃ cmd ∈ a.deniedCommands[command]?.getD [], origin.matches E cmd.context = true) ∨
      a.allowedEntries E command window webview origin = [] := by
  have herased : ({ a with deniedCommands := a.deniedCommands.erase command } :
      RuntimeAuthority G P S).resolveAccess E command window webview origin =
      answer (a.allowedEntries E command window webview origin) := by
    rw [resolveAccess_eq, if_neg (by simp)]
    rfl
  rw [DenyOriginScoped, herased, resolveAccess_eq]
  by_cases hmem : command ∈ a.deniedCommands
  · simp only [hmem, if_true, implies_true, true_and, not_true_eq_false, false_or]
    by_cases hmatch : ∃ cmd ∈ a.deniedCommands[command]?.getD [],
      origin.matches E cmd.context = true
    · simp_all
    · have hnone : ∀ cmd ∈ a.deniedCommands[command]?.getD [],
          origin.matches E cmd.context = false := by
        intro cmd hcmd
        exact Bool.eq_false_iff.mpr fun htrue => hmatch ⟨cmd, hcmd, htrue⟩
      rw [or_iff_right hmatch, forall_prop_of_true hnone]
      cases a.allowedEntries E command window webview origin <;> simp [answer]
  · simp [hmem]

/-- A capability that denies reading to remote pages takes it from the local page. -/
theorem sample_remote_deny_refuses_local : ∃ r,
    Resolves Sample.patterns Sample.acl
      (Sample.capabilities.insert "no-remote-read" Sample.noRemoteRead) .linux r ∧
    ¬ DenyOriginScoped Sample.patterns (RuntimeAuthority.new Sample.acl r :
      RuntimeAuthority _ _ Sample.scopeTypes) "plugin:fs|read_file" "main" "main" .local_ := by
  have hrun : ((Resolved.resolve patterns 2 acl
      (capabilities.insert "no-remote-read" noRemoteRead) .linux) >>=
      fun r => .ok (decide (DenyOriginScoped patterns (new acl r :
        RuntimeAuthority _ _ scopeTypes) "plugin:fs|read_file" "main" "main" .local_))) =
      .ok false := by
    decide
  obtain ⟨r, hr, hscoped⟩ := bind_eq_ok.mp hrun
  exact ⟨r, ⟨2, hr⟩, of_decide_eq_false (ok.inj hscoped)⟩

end Tauri.Ipc
