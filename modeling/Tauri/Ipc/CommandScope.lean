import Tauri.Ipc.Merge

/-!
# Command scopes

An allowed entry carries a scope id, and the scope manager keeps the scope values and a cache of
their deserialisations under this id. The three maps are updated by different operations.
`ScopesCoherent` is the invariant that ties them together: **every id of an allowed entry is a
key of both maps, and a cached value is the deserialisation of the current scope**. Each
operation keeps it, so typed lookups never panic and never return a stale value.

Ids are handed out from `1` by each resolution, and a merge appends the new values to whatever
is stored under the same id. `scopes_kept_iff` says when the scopes that were granted survive
this.
-/

namespace Tauri.Ipc

open Rust Acl List RuntimeAuthority Outcome BTreeMap Std.ExtTreeMap

variable {G P : Type} {S : ScopeTypes} (E : Patterns G P)

/-- The ids of the entries of a table, in the order a merge visits them. -/
def scopeIds (table : CommandTable G P) : List ScopeKey :=
  (table.toList.flatMap (·.2)).filterMap (·.scopeId)

variable {id : ScopeKey} {sm : ScopeManager S} {r : Resolved G P}

theorem mem_scopeIds {table : CommandTable G P} : id ∈ scopeIds table ↔
    ∃ command : String, ∃ rc ∈ table[command]?.getD [], rc.scopeId = some id := by
  simp only [scopeIds, mem_filterMap, mem_flatMap, Prod.exists, mem_toList_iff_getElem?_eq_some]
  constructor <;> grind

/-- The values a merge appends under an id: the new scope, once for each entry with this id. -/
theorem valuesAt_scopeMerges (r : Resolved G P) (id : ScopeKey) :
    valuesAt id (scopeMerges r) =
      List.replicate ((scopeIds r.allowedCommands).count id) (r.commandScope[id]?.getD {}) := by
  unfold scopeMerges scopeIds
  induction r.allowedCommands.toList.flatMap (·.2) with
  | nil => rfl
  | cons rc rcs ih =>
    rw [filterMap_cons, filterMap_cons, scopeMerge]
    cases rc.scopeId with
    | none => exact ih
    | some id' =>
      simp only [Option.map_some]
      rw [valuesAt_cons, ih, count_cons]
      by_cases hid : id' = id
      · simp [hid, replicate_succ]
      · simp [hid]

theorem getElem?_commandScope_merge (sm : ScopeManager S) (r : Resolved G P) (id : ScopeKey) :
    (sm.merge r).commandScope[id]? =
      if id ∈ scopeIds r.allowedCommands then
        some ((List.replicate ((scopeIds r.allowedCommands).count id)
          (r.commandScope[id]?.getD {})).foldl extendScope (sm.commandScope[id]?.getD {}))
      else sm.commandScope[id]? := by
  rw [ScopeManager.merge, getElem?_upsertAll, valuesAt_scopeMerges]
  simp only [replicate_eq_nil_iff, count_eq_zero, ite_not]

theorem getElem?_commandCache_merge (sm : ScopeManager S) (r : Resolved G P) (id : ScopeKey) :
    (sm.merge r).commandCache[id]? =
      if id ∈ scopeIds r.allowedCommands then some .new else sm.commandCache[id]? := by
  have hvals : valuesAt id ((scopeMerges r).map fun ks => (ks.1, (.new : ScopeCache S))) =
      (valuesAt id (scopeMerges r)).map fun _ => .new := by
    induction scopeMerges r with
    | nil => rfl
    | cons ks rest ih =>
      obtain ⟨id', scope⟩ := ks
      rw [map_cons, valuesAt_cons, valuesAt_cons, ih]
      split_ifs <;> rfl
  rw [ScopeManager.merge, getElem?_insertAll, hvals, valuesAt_scopeMerges, map_replicate]
  by_cases hid : id ∈ scopeIds r.allowedCommands
  · grind
  · simp [hid, count_eq_zero.mpr hid]

theorem mem_commandScope_merge :
    id ∈ (sm.merge r).commandScope ↔ id ∈ scopeIds r.allowedCommands ∨ id ∈ sm.commandScope := by
  rw [mem_iff_isSome_getElem?, getElem?_commandScope_merge, mem_iff_isSome_getElem?]
  by_cases hid : id ∈ scopeIds r.allowedCommands <;> simp [hid]

theorem mem_commandCache_merge :
    id ∈ (sm.merge r).commandCache ↔ id ∈ scopeIds r.allowedCommands ∨ id ∈ sm.commandCache := by
  rw [mem_iff_isSome_getElem?, getElem?_commandCache_merge, mem_iff_isSome_getElem?]
  by_cases hid : id ∈ scopeIds r.allowedCommands <;> simp [hid]

/-! ### The invariant -/

/-- The answer of a typed lookup that deserialises the scope. -/
def deserialized (t : S.Id) (scope : ResolvedScope) : Outcome ScopeError (ScopeValue (S.Obj t)) :=
  match deserializeScope S t scope with
  | .ok value => .ok value
  | .error e => .err (.cannotDeserializeScope e)

/-- The command scopes, their cache and the allowed entries fit together. -/
structure ScopesCoherent (a : RuntimeAuthority G P S) : Prop where
  /-- Every id of an allowed entry has a scope. -/
  stored : ∀ id ∈ scopeIds a.allowedCommands, id ∈ a.scopeManager.commandScope
  /-- Scopes and caches have the same keys. -/
  keys : ∀ id, id ∈ a.scopeManager.commandScope ↔ id ∈ a.scopeManager.commandCache
  /-- A cached value is the deserialisation of the current scope. -/
  cached : ∀ (id : ScopeKey) (cache : ScopeCache S) (t : S.Id) (value : ScopeValue (S.Obj t)),
    a.scopeManager.commandCache[id]? = some cache → cache.tryGet t = some value →
      ∀ scope, a.scopeManager.commandScope[id]? = some scope →
        deserializeScope S t scope = .ok value

namespace ScopesCoherent

open RuntimeAuthority

variable {a : RuntimeAuthority G P S}

theorem getCommandScopeTyped_eq (h : ScopesCoherent a) (t : S.Id) {id : ScopeKey}
    {scope : ResolvedScope} (hsc : a.scopeManager.commandScope[id]? = some scope) :
    (a.scopeManager.getCommandScopeTyped t id).1 = deserialized t scope := by
  have hmem := (h.keys id).mp (mem_iff_exists.mpr ⟨scope, hsc⟩)
  obtain ⟨cache, hca⟩ := mem_iff_exists.mp hmem
  unfold ScopeManager.getCommandScopeTyped deserialized
  simp only [hca, hsc]
  cases hget : cache.tryGet t with
  | some value => simp only [h.cached id cache t value hca hget scope hsc]
  | none => cases deserializeScope S t scope <;> rfl

theorem new {acl : Manifests} {capabilities : Capabilities} {target : Target} {r : Resolved G P}
    (hr : Resolves E acl capabilities target r) :
    ScopesCoherent (RuntimeAuthority.new acl r : RuntimeAuthority G P S) where
  stored := by
    intro id hid
    obtain ⟨items, -, -, rfl⟩ := (resolves_iff E).mp hr
    obtain ⟨command, rc, hrc, hid⟩ := mem_scopeIds.mp hid
    exact scopeId_mem_commandScope E hrc hid
  keys := by
    intro id
    simp [RuntimeAuthority.new, Std.ExtTreeMap.mem_map]
  cached := by
    intro id cache t value hca hget
    simp only [RuntimeAuthority.new, Std.ExtTreeMap.getElem?_map, Option.map_eq_some_iff] at hca
    obtain ⟨_, -, rfl⟩ := hca
    cases hget

theorem merge (h : ScopesCoherent a) (r : Resolved G P) :
    ScopesCoherent (a.merge r) where
  stored := by
    intro id hid
    obtain ⟨command, rc, hrc, hid⟩ := mem_scopeIds.mp hid
    rw [getD_allowedCommands_merge, mem_append] at hrc
    refine mem_commandScope_merge.mpr ?_
    rcases hrc with hrc | hrc
    · exact .inr (h.stored id (mem_scopeIds.mpr ⟨command, rc, hrc, hid⟩))
    · exact .inl (mem_scopeIds.mpr ⟨command, rc, hrc, hid⟩)
  keys := by
    intro id
    refine mem_commandScope_merge.trans (Iff.trans ?_ mem_commandCache_merge.symm)
    rw [h.keys]
  cached := by
    intro id cache t value hca hget scope hsc
    change (a.scopeManager.merge r).commandCache[id]? = some cache at hca
    change (a.scopeManager.merge r).commandScope[id]? = some scope at hsc
    rw [getElem?_commandCache_merge] at hca
    rw [getElem?_commandScope_merge] at hsc
    split_ifs at hca hsc with hid
    · cases hca
      cases hget
    · exact h.cached id cache t value hca hget scope hsc

theorem allowCommand {a' : RuntimeAuthority G P S} (h : ScopesCoherent a) {command : String}
    {context : ExecutionContext P} (hallow : a.allowCommand E command context = .ok a') :
    ScopesCoherent a' := by
  unfold RuntimeAuthority.allowCommand at hallow
  cases hstar : E.newGlob "*" with
  | error e => simp [hstar] at hallow
  | ok =>
    simp only [hstar, ok.injEq] at hallow
    subst hallow
    refine ⟨fun id hid => ?_, h.keys, h.cached⟩
    -- the inserted entry has no scope id
    obtain ⟨command', rc, hrc, hid⟩ := mem_scopeIds.mp hid
    rw [Std.ExtTreeMap.getElem?_insert] at hrc
    split_ifs at hrc
    · simp_all
    · exact h.stored id (mem_scopeIds.mpr ⟨command', rc, hrc, hid⟩)

private theorem getCommandScopeTyped_snd (sm : ScopeManager S) (t : S.Id) (id : ScopeKey) :
    (sm.getCommandScopeTyped t id).2 = sm ∨
      ∃ cache scope value, sm.commandCache[id]? = some cache ∧ cache.tryGet t = none ∧
        sm.commandScope[id]? = some scope ∧ deserializeScope S t scope = .ok value ∧
        (sm.getCommandScopeTyped t id).2 =
          { sm with commandCache := sm.commandCache.insert id (cache.set t value).2 } := by
  unfold ScopeManager.getCommandScopeTyped
  cases hca : sm.commandCache[id]? with
  | none => exact .inl rfl
  | some => grind

theorem getCommandScopeTyped (h : ScopesCoherent a) (t : S.Id) (id : ScopeKey) : ScopesCoherent
      { a with scopeManager := (a.scopeManager.getCommandScopeTyped t id).2 } := by
  rcases getCommandScopeTyped_snd a.scopeManager t id with
    hsame | ⟨cache, scope, value, hca, hget, hsc, hvalue, haft⟩
  · rw [hsame]
    exact h
  · rw [haft]
    refine ⟨h.stored, fun id' => ?_, fun id' cache' t' value' hcache' hget' scope' hsc' => ?_⟩
    · rw [mem_insert, Std.LawfulEqOrd.compare_eq_iff_eq, h.keys]
      have hmem : id ∈ a.scopeManager.commandCache := mem_iff_exists.mpr ⟨cache, hca⟩
      constructor
      · exact .inr
      · grind
    · rcases getElem?_insert_eq_some.mp hcache' with ⟨rfl, rfl⟩ | ⟨-, hcache'⟩
      · obtain rfl := Option.some.inj (hsc.symm.trans hsc')
        rw [StateManager.tryGet_set hget] at hget'
        -- the type just cached, or one that was cached before
        by_cases ht : t' = t
        · grind
        · rw [Function.update_of_ne ht] at hget'
          exact h.cached id' cache t' value' hca hget' scope hsc
      · exact h.cached id' cache' t' value' hcache' hget' scope' hsc'

theorem getGlobalScopeTyped (h : ScopesCoherent a) (t : S.Id) (key : String) : ScopesCoherent
      { a with scopeManager := (a.scopeManager.getGlobalScopeTyped t key).2 } := by
  have hkept : (a.scopeManager.getGlobalScopeTyped t key).2.commandScope =
        a.scopeManager.commandScope ∧
      (a.scopeManager.getGlobalScopeTyped t key).2.commandCache = a.scopeManager.commandCache := by
    unfold ScopeManager.getGlobalScopeTyped
    cases a.scopeManager.globalScopeCache.tryGet t with
    | some => exact ⟨rfl, rfl⟩
    | none =>
      dsimp only
      split <;> exact ⟨rfl, rfl⟩
  refine ⟨?_, ?_, ?_⟩
  · rw [hkept.1]
    exact h.stored
  · rw [hkept.1, hkept.2]
    exact h.keys
  · rw [hkept.1, hkept.2]
    exact h.cached

end ScopesCoherent

/-! ### Reachable authorities -/

/-- One operation on the authority of a running application. -/
inductive Step (target : Target) : RuntimeAuthority G P S → RuntimeAuthority G P S → Prop
  | addCapability {a a' : RuntimeAuthority G P S} {file : CapabilityFile}
      (h : RuntimeAuthority.Adds E target a file a') : Step target a a'
  | allowCommand {a a' : RuntimeAuthority G P S} {command : String} {context : ExecutionContext P}
      (h : a.allowCommand E command context = .ok a') : Step target a a'
  | getCommandScopeTyped {a : RuntimeAuthority G P S} (t : S.Id) (id : ScopeKey) :
      Step target a { a with scopeManager := (a.scopeManager.getCommandScopeTyped t id).2 }
  | getGlobalScopeTyped {a : RuntimeAuthority G P S} (t : S.Id) (key : String) :
      Step target a { a with scopeManager := (a.scopeManager.getGlobalScopeTyped t key).2 }

/-- An authority built from resolved tables, after any sequence of operations. The tables were
resolved for some target when the application was built. -/
def Reachable (target : Target) (a : RuntimeAuthority G P S) : Prop :=
  ∃ acl capabilities buildTarget r, Resolves E acl capabilities buildTarget r ∧
    Relation.ReflTransGen (Step E target) (RuntimeAuthority.new acl r) a

variable {target : Target} {a a' : RuntimeAuthority G P S}

theorem Step.scopesCoherent (hstep : Step E target a a') (h : ScopesCoherent a) :
    ScopesCoherent a' := by
  cases hstep with
  | addCapability hadds =>
    obtain ⟨r, -, rfl⟩ := (adds_iff E).mp hadds
    exact h.merge r
  | allowCommand hallow => exact h.allowCommand E hallow
  | getCommandScopeTyped t id => exact h.getCommandScopeTyped t id
  | getGlobalScopeTyped t key => exact h.getGlobalScopeTyped t key

theorem Reachable.scopesCoherent (h : Reachable E target a) : ScopesCoherent a := by
  obtain ⟨acl, capabilities, buildTarget, r, hr, hsteps⟩ := h
  induction hsteps with
  | refl => exact .new E hr
  | tail _ hstep ih => exact hstep.scopesCoherent E ih

/-- **Command-scope lookups never panic and are never stale.** In every reachable authority, the
scope ids of the allowed entries are keys of the scopes and of the caches; a lookup with the id
of an entry that `resolveAccess` returned does not panic; and a lookup of a stored scope answers
with the deserialisation of the scope as it is now. -/
theorem reachable_commandScope_lookups {target : Target} {a : RuntimeAuthority G P S}
    (h : Reachable E target a) :
    (∀ (command : String), ∀ rc ∈ a.allowedCommands[command]?.getD [], ∀ id,
      rc.scopeId = some id →
        id ∈ a.scopeManager.commandScope ∧ id ∈ a.scopeManager.commandCache) ∧
    (∀ command window webview origin cmds,
      a.resolveAccess E command window webview origin = some cmds →
      ∀ rc ∈ cmds, ∀ id, rc.scopeId = some id → ∀ t msg,
        (a.scopeManager.getCommandScopeTyped t id).1 ≠ .panic msg) ∧
    (∀ (id : ScopeKey) scope t, a.scopeManager.commandScope[id]? = some scope →
      (a.scopeManager.getCommandScopeTyped t id).1 = deserialized t scope) := by
  have hcoh := h.scopesCoherent E
  have hsto : ∀ (command : String), ∀ rc ∈ a.allowedCommands[command]?.getD [], ∀ id,
      rc.scopeId = some id → id ∈ a.scopeManager.commandScope := fun command rc hrc id hid =>
    hcoh.stored id (mem_scopeIds.mpr ⟨command, rc, hrc, hid⟩)
  refine ⟨fun command rc hrc id hid => ?_, ?_, fun id scope t hsc =>
    hcoh.getCommandScopeTyped_eq t hsc⟩
  · have hmem := hsto command rc hrc id hid
    exact ⟨hmem, (hcoh.keys id).mp hmem⟩
  · intro command window webview origin cmds haccess rc hrc id hid t msg
    have hallow : rc ∈ a.allowedCommands[command]?.getD [] := by
      rw [resolveAccess_eq] at haccess
      split_ifs at haccess
      have hcmds := getD_answer (a.allowedEntries E command window webview origin)
      rw [haccess] at hcmds
      obtain rfl : cmds = _ := hcmds
      exact mem_of_mem_filter hrc
    obtain ⟨scope, hsc⟩ := mem_iff_exists.mp (hsto command rc hallow id hid)
    rw [hcoh.getCommandScopeTyped_eq t hsc, deserialized]
    cases deserializeScope S t scope <;> exact fun hpanic => nomatch hpanic

/-! ### A sample with scopes -/

namespace Sample

/-- A permission for one command, with one allowed scope value. -/
def pathPermission (identifier command path : String) : Permission where
  identifier := identifier
  commands := { allow := [command] }
  scope := { allow := some [.string path] }

def scopedFs : Manifest where
  permissions := (∅ : BTreeMap String Permission).insertMany
    [("home", pathPermission "home" "read_file" "/home"),
     ("etc", pathPermission "etc" "stat" "/etc")]

def scopedAcl : Manifests := (∅ : Manifests).insert "fs" scopedFs

def fsHome : Identifier := ⟨"fs:home", some 2, by decide⟩

def fsEtc : Identifier := ⟨"fs:etc", some 2, by decide⟩

/-- Reading below `/home`, granted when the application is built. -/
def homeCapability : Capability where
  identifier := "home"
  windows := ["main"]
  permissions := [.permissionRef fsHome]

/-- Another command below `/etc`, granted at run time. -/
def etcCapability : Capability where
  identifier := "etc"
  windows := ["main"]
  permissions := [.permissionRef fsEtc]

def homeCapabilities : Capabilities := (∅ : Capabilities).insert "home" homeCapability

end Sample

open Sample

/-- In the sample, the scope of the built-in command is read, then extended, then read again. -/
theorem sample_lookup_after_addCapability :
    ∃ (a : RuntimeAuthority String String Sample.scopeTypes) (scope : ResolvedScope),
      Reachable Sample.patterns .linux a ∧ a.scopeManager.commandScope[1]? = some scope ∧
      scope.allow.length = 2 ∧
      (a.scopeManager.getCommandScopeTyped () 1).1 =
        deserialized (S := Sample.scopeTypes) () scope := by
  have hrun : ((Resolved.resolve patterns 1 Sample.scopedAcl homeCapabilities .linux)
      >>= fun r =>
      let a : RuntimeAuthority String String scopeTypes := new Sample.scopedAcl r
      addCapability patterns 1 .linux
        { a with scopeManager := (a.scopeManager.getCommandScopeTyped () 1).2 }
        (.capability etcCapability) >>= fun a' =>
      .ok (a'.scopeManager.commandScope[1]?.map (·.allow.length))) = .ok (some 2) := by
    decide
  obtain ⟨r, hr, hrest⟩ := bind_eq_ok.mp hrun
  obtain ⟨a, ha, hlength⟩ := bind_eq_ok.mp hrest
  obtain ⟨scope, hsc, hlen⟩ := Option.map_eq_some_iff.mp (ok.inj hlength)
  have hreach : Reachable patterns .linux a := by
    refine ⟨Sample.scopedAcl, homeCapabilities, .linux, r, ⟨1, hr⟩, ?_⟩
    exact .tail (.tail .refl (.getCommandScopeTyped () 1)) (.addCapability ⟨1, ha⟩)
  exact ⟨a, scope, hreach, hsc, hlen,
    (reachable_commandScope_lookups patterns hreach).2.2 1 scope () hsc⟩

/-! ### When granted scopes survive a merge -/

/-- A scope without values. -/
def ResolvedScope.NoValues (scope : ResolvedScope) : Prop := scope.allow = [] ∧ scope.deny = []

instance (scope : ResolvedScope) : Decidable (ResolvedScope.NoValues scope) :=
  inferInstanceAs (Decidable (_ ∧ _))

/-- The scope an entry resolves to through its scope id. -/
def scopeOf (commandScope : BTreeMap ScopeKey ResolvedScope) (rc : ResolvedCommand G P) :
    Option ResolvedScope := rc.scopeId.bind fun id => commandScope[id]?

/-- The call that led from `a` to `a'` by merging `r` kept the scopes of the entries that were
allowed, and gave the new ones the scopes of their resolution. -/
def ScopesKept (a : RuntimeAuthority G P S) (r : Resolved G P) (a' : RuntimeAuthority G P S) :
    Prop :=
  (∀ command : String, ∀ rc ∈ a.allowedCommands[command]?.getD [],
    scopeOf a'.scopeManager.commandScope rc = scopeOf a.scopeManager.commandScope rc) ∧
  ∀ command : String, ∀ rc ∈ r.allowedCommands[command]?.getD [],
    scopeOf a'.scopeManager.commandScope rc = scopeOf r.commandScope rc

/-- The ids of the new tables are fresh: nothing is stored under them, they are used by one
entry, and no entry that is already allowed uses them. A scope without values needs less. -/
def ScopeIdsFresh (a : RuntimeAuthority G P S) (r : Resolved G P) : Prop :=
  ∀ id ∈ scopeIds r.allowedCommands,
    ResolvedScope.NoValues (a.scopeManager.commandScope[id]?.getD {}) ∧
    ((scopeIds r.allowedCommands).count id = 1 ∨
      ResolvedScope.NoValues (r.commandScope[id]?.getD {})) ∧
    (id ∈ scopeIds a.allowedCommands → ResolvedScope.NoValues (r.commandScope[id]?.getD {}))

instance (a : RuntimeAuthority G P S) (r : Resolved G P) : Decidable (ScopeIdsFresh a r) :=
  inferInstanceAs (Decidable (∀ id ∈ _, _ ∧ _ ∧ (_ → _)))

private theorem foldl_extendScope_replicate (n : Nat) (old more : ResolvedScope) :
    (List.replicate n more).foldl extendScope old =
      ⟨old.allow ++ (List.replicate n more.allow).flatten,
        old.deny ++ (List.replicate n more.deny).flatten⟩ := by
  induction n generalizing old with
  | zero => simp
  | succ n ih => simp [replicate_succ, ih, extendScope]

private theorem append_replicate_eq_left {α : Type} {xs ys : List α} {n : Nat} (hn : 0 < n) :
    xs ++ (List.replicate n ys).flatten = xs ↔ ys = [] := by
  rw [append_right_eq_self, flatten_eq_nil_iff]
  constructor
  · intro h
    exact h ys (mem_replicate.mpr ⟨hn.ne', rfl⟩)
  · intro h zs hzs
    rw [eq_of_mem_replicate hzs, h]

private theorem append_replicate_eq_right {α : Type} {xs ys : List α} {n : Nat} (hn : 0 < n) :
    xs ++ (List.replicate n ys).flatten = ys ↔ xs = [] ∧ (n = 1 ∨ ys = []) := by
  constructor
  · intro h
    have hlen : xs.length + n * ys.length = ys.length := by
      simpa [length_flatten] using congrArg length h
    have hle : ys.length ≤ n * ys.length := Nat.le_mul_of_pos_left _ hn
    refine ⟨length_eq_zero_iff.mp (by omega), ?_⟩
    rcases Nat.eq_or_lt_of_le hn with hone | hlt
    · exact .inl hone.symm
    · have htwo : 2 * ys.length ≤ n * ys.length := Nat.mul_le_mul_right _ hlt
      exact .inr (length_eq_zero_iff.mp (by omega))
  · rintro ⟨rfl, rfl | rfl⟩ <;> simp

private theorem getElem?_commandScope_merge_of_mem (sm : ScopeManager S)
    (hid : id ∈ scopeIds r.allowedCommands) :
    (sm.merge r).commandScope[id]? =
      some ⟨(sm.commandScope[id]?.getD {}).allow ++ (List.replicate
          ((scopeIds r.allowedCommands).count id) (r.commandScope[id]?.getD {}).allow).flatten,
        (sm.commandScope[id]?.getD {}).deny ++ (List.replicate
          ((scopeIds r.allowedCommands).count id) (r.commandScope[id]?.getD {}).deny).flatten⟩ := by
  rw [getElem?_commandScope_merge, if_pos hid, foldl_extendScope_replicate]

private theorem merge_eq_old_iff (hid : id ∈ scopeIds r.allowedCommands)
    (hold : id ∈ sm.commandScope) :
    (sm.merge r).commandScope[id]? = sm.commandScope[id]? ↔
      ResolvedScope.NoValues (r.commandScope[id]?.getD {}) := by
  have hcnt := count_pos_iff.mpr hid
  obtain ⟨old, hget⟩ := mem_iff_exists.mp hold
  rw [getElem?_commandScope_merge_of_mem sm hid, hget, Option.getD_some, Option.some.injEq,
    ResolvedScope.mk.injEq, append_replicate_eq_left hcnt, append_replicate_eq_left hcnt]
  rfl

private theorem merge_eq_new_iff (hid : id ∈ scopeIds r.allowedCommands)
    (hnew : id ∈ r.commandScope) :
    (sm.merge r).commandScope[id]? = r.commandScope[id]? ↔
      ResolvedScope.NoValues (sm.commandScope[id]?.getD {}) ∧
        ((scopeIds r.allowedCommands).count id = 1 ∨
          ResolvedScope.NoValues (r.commandScope[id]?.getD {})) := by
  have hcnt := count_pos_iff.mpr hid
  obtain ⟨new, hget⟩ := mem_iff_exists.mp hnew
  rw [getElem?_commandScope_merge_of_mem sm hid, hget, Option.getD_some, Option.some.injEq,
    ResolvedScope.mk.injEq, append_replicate_eq_right hcnt, append_replicate_eq_right hcnt]
  unfold ResolvedScope.NoValues
  tauto

theorem scopesKept_merge_iff (ha : ScopesCoherent a)
    (hr : ∀ id ∈ scopeIds r.allowedCommands, id ∈ r.commandScope) :
    ScopesKept a r (a.merge r) ↔ ScopeIdsFresh a r := by
  have hsc : ∀ {rc : ResolvedCommand G P} {id : ScopeKey}
      (m : BTreeMap ScopeKey ResolvedScope), rc.scopeId = some id → scopeOf m rc = m[id]? := by
    intro rc id m hid
    rw [scopeOf, hid, Option.bind_some]
  constructor
  · rintro ⟨hkept, hgiven⟩ id hid
    obtain ⟨command, rc, hrc, hrcid⟩ := mem_scopeIds.mp hid
    have hnew := hgiven command rc hrc
    rw [hsc _ hrcid, hsc _ hrcid] at hnew
    obtain ⟨hemp, honce⟩ := (merge_eq_new_iff hid (hr id hid)).mp hnew
    refine ⟨hemp, honce, fun hused => ?_⟩
    obtain ⟨command', rc', hrc', hrcid'⟩ := mem_scopeIds.mp hused
    have hold := hkept command' rc' hrc'
    rw [hsc _ hrcid', hsc _ hrcid'] at hold
    exact (merge_eq_old_iff hid (ha.stored id hused)).mp hold
  · intro hfresh
    refine ⟨fun command rc hrc => ?_, fun command rc hrc => ?_⟩
    · cases hrcid : rc.scopeId with
      | none => simp [scopeOf, hrcid]
      | some id =>
        have hused := mem_scopeIds.mpr ⟨command, rc, hrc, hrcid⟩
        rw [hsc _ hrcid, hsc _ hrcid]
        by_cases hid : id ∈ scopeIds r.allowedCommands
        · exact (merge_eq_old_iff hid (ha.stored id hused)).mpr ((hfresh id hid).2.2 hused)
        · exact (getElem?_commandScope_merge _ r id).trans (if_neg hid)
    · cases hrcid : rc.scopeId with
      | none => simp [scopeOf, hrcid]
      | some id =>
        have hid := mem_scopeIds.mpr ⟨command, rc, hrc, hrcid⟩
        rw [hsc _ hrcid, hsc _ hrcid]
        exact (merge_eq_new_iff hid (hr id hid)).mpr ⟨(hfresh id hid).1, (hfresh id hid).2.1⟩

/-- A sequence of `addCapability` calls each of which satisfies a relation between the authority
before it, the tables it merges and the authority after it. -/
inductive EachCall (target : Target)
    (Q : RuntimeAuthority G P S → Resolved G P → RuntimeAuthority G P S → Prop) :
    RuntimeAuthority G P S → List CapabilityFile → RuntimeAuthority G P S → Prop
  | nil {a : RuntimeAuthority G P S} : EachCall target Q a [] a
  | cons {a b a' : RuntimeAuthority G P S} {file : CapabilityFile} {files : List CapabilityFile}
      {r : Resolved G P} (hr : Resolves E a.acl (capabilitiesOf file) target r)
      (hadd : RuntimeAuthority.Adds E target a file b) (hQ : Q a r b)
      (hrest : EachCall target Q b files a') : EachCall target Q a (file :: files) a'

variable {files : List CapabilityFile}

theorem RuntimeAuthority.AddsAll.scopesCoherent (h : AddsAll E target a files a')
    (ha : ScopesCoherent a) : ScopesCoherent a' := by
  induction h with
  | nil => exact ha
  | cons hadd _ ih => exact ih (Step.scopesCoherent E (.addCapability hadd) ha)

private theorem scopesKept_adds_iff (ha : ScopesCoherent a) {file : CapabilityFile}
    (hr : Resolves E a.acl (capabilitiesOf file) target r)
    (hadd : Adds E target a file a') : ScopesKept a r a' ↔ ScopeIdsFresh a r := by
  obtain ⟨r', hr', rfl⟩ := (adds_iff E).mp hadd
  obtain rfl := hr.unique E hr'
  have hnew : ScopesCoherent (new a.acl r : RuntimeAuthority G P S) := .new E hr
  exact scopesKept_merge_iff ha hnew.stored

private theorem EachCall.scopeOf_eq (h : EachCall E target ScopesKept a files a')
    {command : String} {rc : ResolvedCommand G P} (hrc : rc ∈ a.allowedCommands[command]?.getD []) :
    scopeOf a'.scopeManager.commandScope rc = scopeOf a.scopeManager.commandScope rc := by
  induction h with
  | nil => rfl
  | @cons a _ _ _ _ _ _ hadd hkept _ ih =>
    obtain ⟨r', -, rfl⟩ := (adds_iff E).mp hadd
    have hrc' : rc ∈ (a.merge r').allowedCommands[command]?.getD [] := by
      rw [getD_allowedCommands_merge]
      exact mem_append_left _ hrc
    rw [ih hrc', hkept.1 command rc hrc]

private theorem EachCall.scopesKept
    (h : EachCall E target (fun a r _ => ScopeIdsFresh a r) a files a') (ha : ScopesCoherent a) :
    EachCall E target ScopesKept a files a' := by
  induction h with
  | nil => exact .nil
  | cons hr hadd hfresh _ ih =>
    exact .cons hr hadd ((scopesKept_adds_iff E ha hr hadd).mpr hfresh)
      (ih (Step.scopesCoherent E (.addCapability hadd) ha))

/-- **When runtime capabilities leave granted scopes alone.** In every authority reached by
`addCapability` calls, a further call keeps the scopes exactly when the scope ids of its
resolution are fresh. Hence in a run whose calls all bring fresh ids every call keeps the scopes,
and the built-in commands have at its end the scopes they were resolved with. -/
theorem scopes_kept_iff {acl : Manifests} {capabilities : Capabilities} {buildTarget : Target}
    {r₀ : Resolved G P} (hr₀ : Resolves E acl capabilities buildTarget r₀) {target : Target}
    {files : List CapabilityFile} {a : RuntimeAuthority G P S}
    (hrun : RuntimeAuthority.AddsAll E target (RuntimeAuthority.new acl r₀) files a) :
    (∀ file r a', Resolves E a.acl (capabilitiesOf file) target r →
      RuntimeAuthority.Adds E target a file a' → (ScopesKept a r a' ↔ ScopeIdsFresh a r)) ∧
    (EachCall E target (fun a r _ => ScopeIdsFresh a r) (RuntimeAuthority.new acl r₀) files a →
      EachCall E target ScopesKept (RuntimeAuthority.new acl r₀) files a ∧
      ∀ command : String, ∀ rc ∈ r₀.allowedCommands[command]?.getD [],
        scopeOf a.scopeManager.commandScope rc = scopeOf r₀.commandScope rc) := by
  have hnew : ScopesCoherent (new acl r₀ : RuntimeAuthority G P S) := .new E hr₀
  constructor
  · intro file r a' hr hadd
    exact scopesKept_adds_iff E (hrun.scopesCoherent E hnew) hr hadd
  · intro hfresh
    have hkept := hfresh.scopesKept E hnew
    exact ⟨hkept, fun command rc hrc => hkept.scopeOf_eq E hrc⟩

/-- In the sample, the first scoped capability of an application without scopes brings a fresh
id. -/
theorem sample_first_scope_kept :
    ∃ (r₀ : Resolved String String) (a : RuntimeAuthority String String Sample.scopeTypes),
      Resolves Sample.patterns Sample.scopedAcl ∅ .linux r₀ ∧
      EachCall Sample.patterns .linux ScopesKept (RuntimeAuthority.new Sample.scopedAcl r₀)
        [.capability Sample.homeCapability] a := by
  have hrun : ((Resolved.resolve patterns 1 Sample.scopedAcl ∅ .linux) >>= fun r₀ =>
      Resolved.resolve patterns 1 Sample.scopedAcl
        (capabilitiesOf (.capability homeCapability)) .linux >>= fun r =>
      .ok (decide (ScopeIdsFresh (new Sample.scopedAcl r₀ :
        RuntimeAuthority _ _ scopeTypes) r))) = .ok true := by
    decide
  obtain ⟨r₀, hr₀, hrest⟩ := bind_eq_ok.mp hrun
  obtain ⟨r, hr, hfresh⟩ := bind_eq_ok.mp hrest
  have hadd : Adds patterns .linux
      (new Sample.scopedAcl r₀ : RuntimeAuthority _ _ scopeTypes)
      (.capability homeCapability) ((new Sample.scopedAcl r₀).merge r) :=
    (adds_iff patterns).mpr ⟨r, ⟨1, hr⟩, rfl⟩
  have hcalls := (scopes_kept_iff patterns ⟨1, hr₀⟩ (.cons hadd .nil)).2
    (.cons ⟨1, hr⟩ hadd (of_decide_eq_true (ok.inj hfresh)) .nil)
  exact ⟨r₀, _, ⟨1, hr₀⟩, hcalls.1⟩

/-- In the sample, granting another command at run time widens the scope of the built-in one. -/
theorem sample_addCapability_widens_scope :
    ∃ (r₀ r : Resolved String String) (a' : RuntimeAuthority String String Sample.scopeTypes),
      Resolves Sample.patterns Sample.scopedAcl Sample.homeCapabilities .linux r₀ ∧
      Resolves Sample.patterns Sample.scopedAcl
        (capabilitiesOf (.capability Sample.etcCapability)) .linux r ∧
      RuntimeAuthority.Adds Sample.patterns .linux (RuntimeAuthority.new Sample.scopedAcl r₀)
        (.capability Sample.etcCapability) a' ∧
      ¬ ScopesKept (RuntimeAuthority.new Sample.scopedAcl r₀) r a' := by
  have hrun : ((Resolved.resolve patterns 1 Sample.scopedAcl homeCapabilities .linux)
      >>= fun r₀ => addCapability patterns 1 .linux
        (new Sample.scopedAcl r₀ : RuntimeAuthority _ _ scopeTypes)
        (.capability etcCapability) >>= fun a' =>
      .ok ((r₀.allowedCommands["plugin:fs|read_file"]?.getD []).map fun rc =>
        ((scopeOf r₀.commandScope rc).map (·.allow.length),
          (scopeOf a'.scopeManager.commandScope rc).map (·.allow.length)))) =
      .ok [(some 1, some 2)] := by
    decide
  obtain ⟨r₀, hr₀, hrest⟩ := bind_eq_ok.mp hrun
  obtain ⟨a', ha', hlengths⟩ := bind_eq_ok.mp hrest
  obtain ⟨r, hr, -⟩ := (adds_iff patterns).mp ⟨1, ha'⟩
  refine ⟨r₀, r, a', ⟨1, hr₀⟩, hr, ⟨1, ha'⟩, fun hkept => ?_⟩
  have hmem := mem_singleton_self (some 1, some 2)
  rw [← ok.inj hlengths, mem_map] at hmem
  obtain ⟨rc, hrc, hpair⟩ := hmem
  have hsame := hkept.1 "plugin:fs|read_file" rc hrc
  obtain ⟨hbef, haft⟩ := Prod.mk.inj hpair
  rw [hsame] at haft
  exact absurd (hbef.symm.trans haft) (by decide)

end Tauri.Ipc
