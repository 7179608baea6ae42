import Tauri.Acl.Traversal

/-!
# The resolved tables

`Resolved.resolve` is a nest of loops that update five variables. This file unrolls it: a
successful resolution visits the **reached permissions** (`Reached`: a capability, one of its
entries, one permission of the entry's flattening) in a fixed order, hands out scope ids
(`numberFrom`), and pushes one table entry for each reached permission, command it names and
execution context of its capability.

`resolves_iff` is the one statement the rest of the development uses: resolution succeeds exactly
when every entry has a flattening and every capability that is used parses, and its result is
then `tables E items`.
-/

namespace Tauri.Acl

open Rust List Outcome BTreeMap

/-- A permission that an entry of a capability reaches. -/
structure Reached where
  capability : Capability
  entry : PermissionEntry
  traversed : TraversedPermission

namespace Reached

/-- The reached permission with the scope of its entry. -/
def resolved (it : Reached) : ResolvedPermission := resolvedPermission it.entry it.traversed

/-- Whether a scope id is allocated for the permission: it names commands and has scope
values. -/
def takesScope (it : Reached) : Bool := !it.resolved.isGlobal && it.resolved.isScoped

/-- The scope id of the permission, when `n` ids were allocated before it. -/
def scopeId (n : ScopeKey) (it : Reached) : Option ScopeKey :=
  if it.takesScope then some (n + 1) else none

/-- The number of scope ids allocated after the permission. -/
def nextScopeId (n : ScopeKey) (it : Reached) : ScopeKey := if it.takesScope then n + 1 else n

end Reached

/-- The entries of the active capabilities, in the order they are visited. -/
def capabilityEntries (capabilities : Capabilities) (target : Target) :
    List (Capability × PermissionEntry) :=
  (activeCapabilities capabilities target).flatMap fun c => c.permissions.map fun e => (c, e)

variable {capabilities : Capabilities} {target : Target}

theorem mem_capabilityEntries {ce : Capability × PermissionEntry} :
    ce ∈ capabilityEntries capabilities target ↔
      ce.1 ∈ activeCapabilities capabilities target ∧ ce.2 ∈ ce.1.permissions := by
  obtain ⟨c, e⟩ := ce
  simp only [capabilityEntries, mem_flatMap, mem_map, Prod.mk.injEq]
  constructor
  · rintro ⟨c', hc', e', he', rfl, rfl⟩
    exact ⟨hc', he'⟩
  · rintro ⟨hc, he⟩
    exact ⟨c, hc, e, he, rfl, rfl⟩

/-- What one entry reaches on the target, given its flattening. -/
def reachedVia (target : Target) (ce : Capability × PermissionEntry)
    (ts : List TraversedPermission) : List Reached :=
  (ts.filter fun t => t.permission.isActive target).map (Reached.mk ce.1 ce.2)

/-- `items` are the reached permissions, in the order they are visited: for each entry, the
active part of its flattening. -/
def ReachedInOrder (acl : Manifests) (capabilities : Capabilities) (target : Target)
    (items : List Reached) : Prop :=
  ∃ flat : Identifier → List TraversedPermission,
    (∀ ce ∈ capabilityEntries capabilities target,
      EntryFlattens acl ce.2.identifier (flat ce.2.identifier)) ∧
    items = (capabilityEntries capabilities target).flatMap fun ce =>
      reachedVia target ce (flat ce.2.identifier)

open Reached

/-- Being among the reached permissions, without the order: an active capability has an entry
that reaches the active permission. -/
theorem ReachedInOrder.mem_iff {acl : Manifests} {items : List Reached}
    (h : ReachedInOrder acl capabilities target items) {it : Reached} :
    it ∈ items ↔ it.capability ∈ activeCapabilities capabilities target ∧
      it.entry ∈ it.capability.permissions ∧ EntryReaches acl it.entry.identifier it.traversed ∧
      it.traversed.permission.isActive target := by
  obtain ⟨flat, hflat, rfl⟩ := h
  obtain ⟨c, e, t⟩ := it
  simp only [mem_flatMap, reachedVia, mem_map, mem_filter, mk.injEq, Prod.exists]
  constructor
  · rintro ⟨c', e', hce, t', ⟨ht, hact⟩, rfl, rfl, rfl⟩
    obtain ⟨hc, he⟩ := mem_capabilityEntries.mp hce
    exact ⟨hc, he, (hflat _ hce).mem_iff.mp ht, hact⟩
  · rintro ⟨hc, he, hreach, hact⟩
    have hce : (c, e) ∈ capabilityEntries capabilities target := mem_capabilityEntries.mpr ⟨hc, he⟩
    exact ⟨c, e, hce, t, ⟨(hflat _ hce).mem_iff.mpr hreach, hact⟩, rfl, rfl, rfl⟩

theorem ReachedInOrder.unique {acl : Manifests} {items items' : List Reached}
    (h : ReachedInOrder acl capabilities target items)
    (h' : ReachedInOrder acl capabilities target items') : items = items' := by
  obtain ⟨flat, hflat, rfl⟩ := h
  obtain ⟨flat', hflat', rfl⟩ := h'
  refine flatMap_congr fun ce hce => ?_
  rw [(hflat ce hce).unique (hflat' ce hce)]

/-- The reached permissions with the scope ids they are given, counting from `n`. -/
def numberFrom : ScopeKey → List Reached → List (Option ScopeKey × Reached)
  | _, [] => []
  | n, it :: its => (it.scopeId n, it) :: numberFrom (it.nextScopeId n) its

section Tables

variable {G P : Type} (E : Patterns G P)

/-- The entries a command of the capability is given: one for each execution context. -/
def commandEntries (capability : Capability) (scopeId : Option ScopeKey)
    (permissionIdentifier : String) : List (ResolvedCommand G P) :=
  ((executionContexts E capability).getD []).map fun context =>
    { context, referencedBy := ⟨capability.identifier, permissionIdentifier⟩
      windows := (parseGlobPatterns E capability.windows).getD []
      webviews := (parseGlobPatterns E capability.webviews).getD []
      scopeId }

/-- The pushes for some of the commands of a reached permission. -/
def commandPushes (select : Commands → List String) (ni : Option ScopeKey × Reached) :
    List (String × ResolvedCommand G P) :=
  (select ni.2.resolved.commands).flatMap fun command =>
    (commandEntries E ni.2.capability ni.1 ni.2.traversed.permissionName).map fun rc =>
      (commandName ni.2.traversed.key command, rc)

/-- The scope stored for a numbered permission. -/
def scopePush (ni : Option ScopeKey × Reached) : Option (ScopeKey × ResolvedScope) :=
  ni.1.map fun id => (id, ni.2.resolved.resolvedScope)

/-- The global scope a reached permission adds to. -/
def globalPush (it : Reached) : Option (String × Scopes) :=
  if it.resolved.isGlobal then some (it.traversed.key, it.resolved.scope) else none

/-- The tables for the reached permissions. -/
def tables (items : List Reached) : Resolved G P where
  allowedCommands := BTreeMap.pushAll ∅ ((numberFrom 0 items).flatMap (commandPushes E (·.allow)))
  deniedCommands := BTreeMap.pushAll ∅ ((numberFrom 0 items).flatMap (commandPushes E (·.deny)))
  commandScope := BTreeMap.insertAll ∅ ((numberFrom 0 items).filterMap scopePush)
  globalScope := (BTreeMap.pushAll ∅ (items.filterMap globalPush)).map
    fun _ scopes => scopes.foldl ResolvedScope.extendScopes {}

/-- A capability parses: its remote URL patterns do, and where it has an execution context, its
globs do too. -/
def Parses (capability : Capability) : Prop :=
  ∃ contexts, executionContexts E capability = .ok contexts ∧
    (contexts ≠ [] → (∃ windows, parseGlobPatterns E capability.windows = .ok windows) ∧
      ∃ webviews, parseGlobPatterns E capability.webviews = .ok webviews)

/-- Every command of a reached permission can be resolved. -/
def Reached.Resolvable (it : Reached) : Prop :=
  it.resolved.isGlobal = false → Parses E it.capability

/-! ### Unrolling the loops -/

private theorem resolveCommand_eq_ok {commands commands' : CommandTable G P} {command : String}
    {capability : Capability} {scopeId : Option ScopeKey} {name : String} :
    resolveCommand E commands command capability scopeId name = .ok commands' ↔
      Parses E capability ∧ commands' = commands.pushAll
        ((commandEntries E capability scopeId name).map fun rc => (command, rc)) := by
  rw [resolveCommand, bind_eq_ok]
  -- the body of the context loop only checks that the globs parse, and pushes one entry
  have hbody : ∀ (contexts : List (ExecutionContext P)),
      contexts.foldlM (fun commands context =>
        parseGlobPatterns E capability.windows >>= fun windows =>
        parseGlobPatterns E capability.webviews >>= fun webviews =>
        .ok (commands.upsert command [] fun entries => entries ++
          [{ context, referencedBy := ⟨capability.identifier, name⟩,
             windows, webviews, scopeId }])) commands = .ok commands' ↔
      (∀ _c ∈ contexts, (∃ windows, parseGlobPatterns E capability.windows = .ok windows) ∧
        ∃ webviews, parseGlobPatterns E capability.webviews = .ok webviews) ∧
      commands' = contexts.foldl (fun commands context =>
        commands.upsert command [] fun entries => entries ++
          [{ context, referencedBy := ⟨capability.identifier, name⟩
             windows := (parseGlobPatterns E capability.windows).getD []
             webviews := (parseGlobPatterns E capability.webviews).getD []
             scopeId }]) commands := by
    intro contexts
    refine foldlM_eq_ok_iff_foldl fun s context s' => ?_
    simp only [bind_eq_ok, ok.injEq]
    constructor
    · rintro ⟨windows, hwin, webviews, hweb, rfl⟩
      exact ⟨⟨⟨windows, hwin⟩, webviews, hweb⟩, by rw [hwin, hweb]; rfl⟩
    · rintro ⟨⟨⟨windows, hwin⟩, webviews, hweb⟩, rfl⟩
      exact ⟨windows, hwin, webviews, hweb, by rw [hwin, hweb]; rfl⟩
  simp only [hbody, Parses]
  constructor
  · rintro ⟨contexts, hctx, hglobs, rfl⟩
    refine ⟨⟨contexts, hctx, fun hne => ?_⟩, ?_⟩
    · obtain ⟨c, hc⟩ := exists_mem_of_ne_nil _ hne
      exact hglobs c hc
    · simp only [pushAll, upsertAll, commandEntries, hctx, getD_ok,
        map_map, foldl_map, Function.comp_apply]
  · rintro ⟨⟨contexts, hctx, hglobs⟩, rfl⟩
    refine ⟨contexts, hctx, fun c hc => hglobs (ne_nil_of_mem hc), ?_⟩
    simp only [pushAll, upsertAll, commandEntries, hctx, getD_ok,
      map_map, foldl_map, Function.comp_apply]

private theorem foldlM_resolveCommand_eq_ok (select : Commands → List String)
    (ni : Option ScopeKey × Reached) {commands commands' : CommandTable G P} :
    (select ni.2.resolved.commands).foldlM (fun commands command =>
      resolveCommand E commands (commandName ni.2.traversed.key command) ni.2.capability ni.1
        ni.2.traversed.permissionName) commands = .ok commands' ↔
      (∀ _c ∈ select ni.2.resolved.commands, Parses E ni.2.capability) ∧
        commands' = commands.pushAll (commandPushes E select ni) := by
  rw [foldlM_eq_ok_iff_foldl (fun _ _ _ => resolveCommand_eq_ok E)]
  simp only [pushAll, upsertAll, commandPushes, foldl_flatMap]

/-- The state after a reached permission, as a total function. -/
private def stepState (st : ResolveState G P) (it : Reached) : ResolveState G P where
  allowedCommands := st.allowedCommands.pushAll
    (commandPushes E (·.allow) (it.scopeId st.currentScopeId, it))
  deniedCommands := st.deniedCommands.pushAll
    (commandPushes E (·.deny) (it.scopeId st.currentScopeId, it))
  currentScopeId := it.nextScopeId st.currentScopeId
  commandScope := st.commandScope.insertAll
    (scopePush (it.scopeId st.currentScopeId, it)).toList
  globalScope := st.globalScope.pushAll (globalPush it).toList

variable {it : Reached}

private theorem exists_command_of_not_isGlobal {rp : ResolvedPermission} (h : rp.isGlobal = false) :
    rp.commands.allow ≠ [] ∨ rp.commands.deny ≠ [] := by
  by_contra hcon
  simp only [not_or, not_not] at hcon
  simp [ResolvedPermission.isGlobal, hcon.1, hcon.2] at h

section

variable (st : ResolveState G P)

private theorem stepState_of_isGlobal (h : it.resolved.isGlobal = true) :
    stepState E st it =
      { st with
        globalScope := st.globalScope.upsert it.resolved.key [] fun scopes =>
          scopes ++ [it.resolved.scope] } := by
  have hnone : it.resolved.commands.allow = [] ∧ it.resolved.commands.deny = [] := by
    simpa [ResolvedPermission.isGlobal] using h
  have htakes : it.takesScope = false := by simp [takesScope, h]
  simp only [stepState, commandPushes, hnone.1, hnone.2, scopeId, nextScopeId,
    htakes, scopePush, globalPush, h]
  rfl

private theorem stepState_of_not_isGlobal (h : it.resolved.isGlobal = false) :
    stepState E st it =
      { (allocScope st it.resolved).2 with
        allowedCommands := st.allowedCommands.pushAll
          (commandPushes E (·.allow) ((allocScope st it.resolved).1, it))
        deniedCommands := st.deniedCommands.pushAll
          (commandPushes E (·.deny) ((allocScope st it.resolved).1, it)) } := by
  have htakes : it.takesScope = it.resolved.isScoped := by simp [takesScope, h]
  simp only [stepState, scopeId, nextScopeId, htakes, scopePush, globalPush, h, allocScope]
  cases it.resolved.isScoped <;> rfl

private theorem allocScope_commands (rp : ResolvedPermission) :
    (allocScope st rp).2.allowedCommands = st.allowedCommands ∧
      (allocScope st rp).2.deniedCommands = st.deniedCommands := by
  unfold allocScope
  split_ifs <;> exact ⟨rfl, rfl⟩

private theorem resolvePermission_eq_ok (it : Reached) (st' : ResolveState G P) :
    resolvePermission E it.capability st it.resolved = .ok st' ↔
      it.Resolvable E ∧ st' = stepState E st it := by
  cases hglob : it.resolved.isGlobal with
  | true =>
    rw [stepState_of_isGlobal E st hglob]
    simp only [resolvePermission, hglob, if_true, ok.injEq, Reached.Resolvable,
      reduceCtorEq, false_imp_iff, true_and]
    exact eq_comm
  | false =>
    have hsome := exists_command_of_not_isGlobal hglob
    have hallow := @foldlM_resolveCommand_eq_ok _ _ E (·.allow)
      ((allocScope st it.resolved).1, it) st.allowedCommands
    have hdeny := @foldlM_resolveCommand_eq_ok _ _ E (·.deny)
      ((allocScope st it.resolved).1, it) st.deniedCommands
    rw [stepState_of_not_isGlobal E st hglob]
    simp only [resolvePermission, hglob, Bool.false_eq_true, if_false, bind_eq_ok,
      Reached.Resolvable, forall_const, allocScope_commands]
    constructor
    · rintro ⟨allowed, ha, denied, hd, hst⟩
      obtain ⟨hpa, rfl⟩ := hallow.mp ha
      obtain ⟨hpd, rfl⟩ := hdeny.mp hd
      cases hst
      refine ⟨?_, rfl⟩
      -- some command was resolved, and resolving it parsed the capability
      rcases hsome with hne | hne
      · obtain ⟨c, hc⟩ := exists_mem_of_ne_nil _ hne
        exact hpa c hc
      · obtain ⟨c, hc⟩ := exists_mem_of_ne_nil _ hne
        exact hpd c hc
    · rintro ⟨hpar, rfl⟩
      exact ⟨_, hallow.mpr ⟨fun _ _ => hpar, rfl⟩, _, hdeny.mpr ⟨fun _ _ => hpar, rfl⟩, rfl⟩

theorem exists_resolvePermission_eq_ok (h : it.Resolvable E) :
    ∃ st', resolvePermission E it.capability st it.resolved = .ok st' :=
  ⟨_, (resolvePermission_eq_ok E st it _).mpr ⟨h, rfl⟩⟩

end

/-! ### The closed form of the state -/

private theorem foldl_stepState (items : List Reached) (st : ResolveState G P) :
    (items.foldl (stepState E) st).allowedCommands = st.allowedCommands.pushAll
        ((numberFrom st.currentScopeId items).flatMap (commandPushes E (·.allow))) ∧
      (items.foldl (stepState E) st).deniedCommands = st.deniedCommands.pushAll
        ((numberFrom st.currentScopeId items).flatMap (commandPushes E (·.deny))) ∧
      (items.foldl (stepState E) st).commandScope = st.commandScope.insertAll
        ((numberFrom st.currentScopeId items).filterMap scopePush) ∧
      (items.foldl (stepState E) st).globalScope =
        st.globalScope.pushAll (items.filterMap globalPush) := by
  induction items generalizing st with
  | nil => exact ⟨rfl, rfl, rfl, rfl⟩
  | cons it its ih =>
    obtain ⟨iha, ihd, ihs, ihg⟩ := ih (stepState E st it)
    rw [foldl_cons, iha, ihd, ihs, ihg]
    refine ⟨?_, ?_, ?_, ?_⟩
    · rw [numberFrom, flatMap_cons, pushAll_append]
      rfl
    · rw [numberFrom, flatMap_cons, pushAll_append]
      rfl
    · simp only [numberFrom, filterMap_cons, stepState]
      cases scopePush (it.scopeId st.currentScopeId, it) <;> rfl
    · simp only [filterMap_cons, stepState]
      cases globalPush it with
      | none => rfl
      | some ks => exact (pushAll_append st.globalScope [ks] _).symm

/-- What the entry loop of one capability reaches, with the given fuel. -/
private def reachedWith (fuel : Nat) (acl : Manifests) (target : Target)
    (ce : Capability × PermissionEntry) : List Reached :=
  reachedVia target ce ((getPermissions fuel ce.2.identifier acl).getD [])

/-- An entry resolves with the given fuel. -/
private def EntryResolves (fuel : Nat) (acl : Manifests) (target : Target)
    (ce : Capability × PermissionEntry) : Prop :=
  ∃ ts, getPermissions fuel ce.2.identifier acl = .ok ts ∧
    ∀ it ∈ reachedVia target ce ts, it.Resolvable E

variable {acl : Manifests} {target : Target} {capabilities : Capabilities} {r : Resolved G P}

private theorem withResolvedPermissions_eq_ok {fuel : Nat} (st : ResolveState G P)
    (c : Capability) (st' : ResolveState G P) :
    withResolvedPermissions fuel c acl target (resolvePermission E c) st = .ok st' ↔
      (∀ e ∈ c.permissions, EntryResolves E fuel acl target (c, e)) ∧
        st' = c.permissions.foldl (fun st e =>
          (reachedWith fuel acl target (c, e)).foldl (stepState E) st) st := by
  refine foldlM_eq_ok_iff_foldl fun s e s' => ?_
  rw [bind_eq_ok]
  -- the inner loop runs through the active permissions of the entry
  have hinner : ∀ ts : List TraversedPermission,
      (ts.filter fun t => t.permission.isActive target).foldlM
        (fun s t => resolvePermission E c s (resolvedPermission e t)) s = .ok s' ↔
      (∀ it ∈ reachedVia target (c, e) ts, it.Resolvable E) ∧
        s' = (reachedVia target (c, e) ts).foldl (stepState E) s := by
    intro ts
    rw [← foldlM_eq_ok_iff_foldl (resolvePermission_eq_ok E), reachedVia, foldlM_map]
    -- `Reached.resolved` and `Reached.capability` compute on the constructor
    rfl
  constructor
  · rintro ⟨ts, hts, hloop⟩
    obtain ⟨hres, rfl⟩ := (hinner ts).mp hloop
    exact ⟨⟨ts, hts, hres⟩, by rw [reachedWith, hts, getD_ok]⟩
  · rintro ⟨⟨ts, hts, hres⟩, rfl⟩
    refine ⟨ts, hts, (hinner ts).mpr ⟨hres, ?_⟩⟩
    rw [reachedWith, hts, getD_ok]

/-- `Resolved.resolve` with a given fuel: it succeeds when every entry resolves, with the tables
for what the entries reach. -/
private theorem resolve_eq_ok {fuel : Nat} :
    Resolved.resolve E fuel acl capabilities target = .ok r ↔
      (∀ ce ∈ capabilityEntries capabilities target, EntryResolves E fuel acl target ce) ∧
        r = tables E ((capabilityEntries capabilities target).flatMap
          (reachedWith fuel acl target)) := by
  have hloop : ∀ st' : ResolveState G P, (activeCapabilities capabilities target).foldlM
      (fun st c => withResolvedPermissions fuel c acl target (resolvePermission E c) st) {}
        = .ok st' ↔
      (∀ ce ∈ capabilityEntries capabilities target, EntryResolves E fuel acl target ce) ∧
        st' = ((capabilityEntries capabilities target).flatMap
          (reachedWith fuel acl target)).foldl (stepState E) {} := by
    intro st'
    rw [foldlM_eq_ok_iff_foldl (withResolvedPermissions_eq_ok E),
      capabilityEntries, foldl_flatMap, foldl_flatMap]
    simp only [foldl_map, forall_mem_flatMap, forall_mem_map]
  rw [Resolved.resolve, bind_eq_ok]
  simp only [hloop, ok.injEq]
  obtain ⟨ha, hd, hs, hg⟩ := foldl_stepState E ((capabilityEntries capabilities target).flatMap
    (reachedWith fuel acl target)) {}
  constructor
  · rintro ⟨_, ⟨hres, rfl⟩, rfl⟩
    refine ⟨hres, ?_⟩
    rw [ha, hd, hs, hg]
    rfl
  · rintro ⟨hres, rfl⟩
    refine ⟨_, ⟨hres, rfl⟩, ?_⟩
    rw [ha, hd, hs, hg]
    rfl

/-! ### Resolution without fuel -/

/-- `Resolved::resolve` succeeds with the tables `r`. -/
def Resolves (acl : Manifests) (capabilities : Capabilities) (target : Target)
    (r : Resolved G P) : Prop :=
  ∃ fuel, Resolved.resolve E fuel acl capabilities target = .ok r

private theorem exists_fuel_forall {flat : Identifier → List TraversedPermission}
    {ces : List (Capability × PermissionEntry)}
    (h : ∀ ce ∈ ces, EntryFlattens acl ce.2.identifier (flat ce.2.identifier)) :
    ∃ fuel, ∀ ce ∈ ces, getPermissions fuel ce.2.identifier acl = .ok (flat ce.2.identifier) := by
  choose! fuelOf hfuelOf using fun ce hce => (h ce hce).exists_fuel
  refine ⟨(ces.map fuelOf).foldr max 0, fun ce hce => hfuelOf ce hce _ ?_⟩
  exact le_max_of_le (mem_map_of_mem hce) le_rfl

/-- **What resolution computes.** It succeeds exactly when the entries of the active
capabilities have flattenings and every capability behind a permission that names commands
parses; the result is the tables for the reached permissions. -/
theorem resolves_iff : Resolves E acl capabilities target r ↔
      ∃ items, ReachedInOrder acl capabilities target items ∧ (∀ it ∈ items, it.Resolvable E) ∧
        r = tables E items := by
  constructor
  · rintro ⟨fuel, h⟩
    obtain ⟨hres, rfl⟩ := (resolve_eq_ok E).mp h
    have hok : ∀ ce ∈ capabilityEntries capabilities target,
        getPermissions fuel ce.2.identifier acl =
          .ok ((getPermissions fuel ce.2.identifier acl).getD []) := by
      intro ce hce
      obtain ⟨ts, hts, -⟩ := hres ce hce
      rw [hts, getD_ok]
    refine ⟨_, ⟨fun id => (getPermissions fuel id acl).getD [], fun ce hce =>
      entryFlattens_of_getPermissions (hok ce hce), rfl⟩, fun it hit => ?_, rfl⟩
    obtain ⟨ce, hce, hit⟩ := mem_flatMap.mp hit
    obtain ⟨ts, hts, hts'⟩ := hres ce hce
    exact hts' it (by simpa only [hts, getD_ok] using hit)
  · rintro ⟨items, ⟨flat, hflat, rfl⟩, hres, rfl⟩
    obtain ⟨fuel, hfuel⟩ := exists_fuel_forall hflat
    have hvia : (capabilityEntries capabilities target).flatMap (fun ce =>
        reachedVia target ce (flat ce.2.identifier)) =
        (capabilityEntries capabilities target).flatMap (reachedWith fuel acl target) := by
      refine flatMap_congr fun ce hce => ?_
      rw [reachedWith, hfuel ce hce, getD_ok]
    refine ⟨fuel, (resolve_eq_ok E).mpr ⟨fun ce hce => ⟨_, hfuel ce hce, fun it hit => ?_⟩, ?_⟩⟩
    · exact hres it (mem_flatMap.mpr ⟨ce, hce, hit⟩)
    · rw [hvia]

theorem Resolves.unique {r' : Resolved G P} (h : Resolves E acl capabilities target r)
    (h' : Resolves E acl capabilities target r') : r = r' := by
  obtain ⟨items, hitems, -, rfl⟩ := (resolves_iff E).mp h
  obtain ⟨items', hitems', -, rfl⟩ := (resolves_iff E).mp h'
  rw [hitems.unique hitems']

/-! ### What the tables contain -/

/-- The remote URL patterns of a capability, as written. -/
def Capability.remoteUrls (c : Capability) : List String := (c.remote.map (·.urls)).getD []

/-- The execution contexts of a capability: the local one when it is enabled, and one for each
remote URL pattern. -/
theorem mem_executionContexts {c : Capability} {contexts : List (ExecutionContext P)}
    (h : executionContexts E c = .ok contexts) {context : ExecutionContext P} :
    context ∈ contexts ↔ (c.local_ = true ∧ context = .local_) ∨
      ∃ url ∈ c.remoteUrls, ∃ pattern,
        E.parseUrl url = .ok pattern ∧ context = .remote pattern := by
  have hloc : context ∈ (if c.local_ then [ExecutionContext.local_] else []) ↔
      c.local_ = true ∧ context = .local_ := by
    cases c.local_ <;> simp
  have hctx : ∀ url, remoteContext E url = .ok context ↔
      ∃ pattern, E.parseUrl url = .ok pattern ∧ context = .remote pattern := by
    intro url
    rw [remoteContext]
    cases E.parseUrl url <;> simp [eq_comm]
  rw [executionContexts] at h
  cases hremote : c.remote with
  | none =>
    rw [hremote] at h
    cases h
    simp [hloc, Capability.remoteUrls, hremote]
  | some remote =>
    have hurls : c.remoteUrls = remote.urls := by simp [Capability.remoteUrls, hremote]
    simp only [hremote] at h
    rw [mem_of_foldlM_push h, hloc, hurls]
    simp only [hctx]

theorem mem_parseGlobPatterns {raw : List String} {globs : List G}
    (h : parseGlobPatterns E raw = .ok globs) {g : G} :
    g ∈ globs ↔ ∃ pattern ∈ raw, E.newGlob pattern = .ok g := by
  have hglob : ∀ pattern, newGlobPattern E pattern = .ok g ↔ E.newGlob pattern = .ok g := by
    intro pattern
    rw [newGlobPattern]
    cases E.newGlob pattern <;> simp
  rw [mem_of_foldlM_push h]
  simp only [not_mem_nil, false_or, (perm_insertionSort _ raw).mem_iff, hglob]

theorem map_snd_numberFrom (n : ScopeKey) (items : List Reached) :
    (numberFrom n items).map Prod.snd = items := by
  induction items generalizing n with
  | nil => rfl
  | cons it its ih => rw [numberFrom, map_cons, ih]

/-- The entries that a numbered permission pushes under a command string: one batch for each
time it names the command. -/
theorem valuesAt_commandPushes (select : Commands → List String) (ni : Option ScopeKey × Reached)
    (command : String) : valuesAt command (commandPushes E select ni) =
      ((select ni.2.resolved.commands).filter
        fun c => commandName ni.2.traversed.key c = command).flatMap fun _ =>
          commandEntries E ni.2.capability ni.1 ni.2.traversed.permissionName := by
  rw [commandPushes, valuesAt_flatMap]
  induction select ni.2.resolved.commands with
  | nil => rfl
  | cons c cs ih =>
    rw [flatMap_cons, ih, filter_cons]
    by_cases hc : commandName ni.2.traversed.key c = command <;> simp [valuesAt, hc]

theorem getD_allowedCommands_tables (items : List Reached) (command : String) :
    (tables E items).allowedCommands[command]?.getD [] =
      valuesAt command ((numberFrom 0 items).flatMap (commandPushes E (·.allow))) :=
  getD_pushAll_empty _ command

theorem getD_deniedCommands_tables (items : List Reached) (command : String) :
    (tables E items).deniedCommands[command]?.getD [] =
      valuesAt command ((numberFrom 0 items).flatMap (commandPushes E (·.deny))) :=
  getD_pushAll_empty _ command

/-- **The scope of every table entry is stored**: the id of an allowed entry is a key of the
command scopes. -/
theorem scopeId_mem_commandScope {items : List Reached} {command : String}
    {rc : ResolvedCommand G P} (hrc : rc ∈ (tables E items).allowedCommands[command]?.getD [])
    {id : ScopeKey} (hid : rc.scopeId = some id) : id ∈ (tables E items).commandScope := by
  rw [getD_allowedCommands_tables, mem_valuesAt] at hrc
  obtain ⟨ni, hni, hpush⟩ := mem_flatMap.mp hrc
  simp only [commandPushes, commandEntries, mem_flatMap, mem_map, Prod.mk.injEq] at hpush
  obtain ⟨_, _, _, ⟨_, _, rfl⟩, -, rfl⟩ := hpush
  refine mem_insertAll.mpr (.inr ⟨ni.2.resolved.resolvedScope, ?_⟩)
  refine mem_filterMap.mpr ⟨ni, hni, ?_⟩
  have hni1 : ni.1 = some id := hid
  rw [scopePush, hni1, Option.map_some]

end Tables

namespace Sample

/-- Globs and URL patterns that match nothing but themselves. -/
def literalPatterns : Patterns String String where
  newGlob := .ok
  globMatches glob label := glob == label
  parseUrl := .ok
  testUrl _ _ := false

end Sample

end Tauri.Acl
