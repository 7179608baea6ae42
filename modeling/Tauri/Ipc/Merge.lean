import Tauri.Ipc.Access

/-!
# Adding capabilities at run time

`addCapability` resolves the new capabilities on their own and merges the tables into those the
authority has. The merge is a nest of loops that could panic on a missing scope; it never does,
and `adds_iff` gives a successful call as the total function `merge`, whose maps are described by
the entry loops of `BTreeMap`.

Two consequences for access decisions. A merge **appends**: the entries that apply after it are
those that applied before, followed by those of the new tables, and the denied commands are the
union. Hence a call affects only the commands its capabilities name, and the order of the calls
does not matter for whether a request is granted.
-/

namespace Tauri.Ipc

open Rust Acl List Std.ExtTreeMap Outcome BTreeMap

variable {G P : Type} {S : ScopeTypes} (E : Patterns G P)

/-! ### The merge as a total function -/

/-- The scope that an allowed entry brings: that of its scope id. -/
def scopeMerge (commandScope : BTreeMap ScopeKey ResolvedScope) (rc : ResolvedCommand G P) :
    Option (ScopeKey × ResolvedScope) :=
  rc.scopeId.map fun id => (id, commandScope[id]?.getD {})

/-- The scopes that the allowed entries of the tables bring, in the order they are merged: one
for each entry that has a scope id. -/
def scopeMerges (r : Resolved G P) : List (ScopeKey × ResolvedScope) :=
  (r.allowedCommands.toList.flatMap (·.2)).filterMap (scopeMerge r.commandScope)

/-- The scope manager after a merge. -/
def ScopeManager.merge (sm : ScopeManager S) (r : Resolved G P) : ScopeManager S where
  commandScope := sm.commandScope.upsertAll {} extendScope (scopeMerges r)
  globalScope := sm.globalScope.upsertAll {} extendScope r.globalScope.toList
  commandCache := sm.commandCache.insertAll ((scopeMerges r).map fun ks => (ks.1, .new))
  globalScopeCache := if r.globalScope.toList.isEmpty then sm.globalScopeCache else .new

/-- The authority after a merge. -/
def RuntimeAuthority.merge (a : RuntimeAuthority G P S) (r : Resolved G P) :
    RuntimeAuthority G P S where
  acl := a.acl
  allowedCommands := a.allowedCommands.upsertAll [] (fun entry cmds => entry ++ cmds)
    r.allowedCommands.toList
  deniedCommands := a.deniedCommands.upsertAll [] (fun entry cmds => entry ++ cmds)
    r.deniedCommands.toList
  scopeManager := a.scopeManager.merge r

namespace RuntimeAuthority

private theorem fillGlobalScope_eq (sm : ScopeManager S)
    (globalScope : BTreeMap String ResolvedScope) : fillGlobalScope sm globalScope =
      { sm with
        globalScope := sm.globalScope.upsertAll {} extendScope globalScope.toList
        globalScopeCache := if globalScope.toList.isEmpty then sm.globalScopeCache else .new } := by
  unfold fillGlobalScope
  induction globalScope.toList generalizing sm with
  | nil => rfl
  | cons ks rest ih =>
    rw [foldl_cons, ih]
    cases rest <;> rfl

/-- Filling the scope of one entry, as a total function. -/
private def fillScope (commandScope : BTreeMap ScopeKey ResolvedScope) (sm : ScopeManager S)
    (rc : ResolvedCommand G P) : ScopeManager S :=
  { sm with
    commandScope := sm.commandScope.upsertAll {} extendScope (scopeMerge commandScope rc).toList
    commandCache := sm.commandCache.insertAll
      ((scopeMerge commandScope rc).toList.map fun ks => (ks.1, .new)) }

/-- The scope of the entry is stored. -/
private def ScopeStored (commandScope : BTreeMap ScopeKey ResolvedScope)
    (rc : ResolvedCommand G P) : Prop := ∀ id, rc.scopeId = some id → id ∈ commandScope

variable (commandScope : BTreeMap ScopeKey ResolvedScope)

private theorem fillCommandScope_eq_ok (sm : ScopeManager S) (rc : ResolvedCommand G P)
    (sm' : ScopeManager S) :
    fillCommandScope commandScope sm rc = .ok sm' ↔
      ScopeStored commandScope rc ∧ sm' = fillScope commandScope sm rc := by
  unfold fillCommandScope ScopeStored fillScope scopeMerge
  cases hid : rc.scopeId with
  | none =>
    simp only [reduceCtorEq, false_imp_iff, implies_true, true_and, ok.injEq]
    exact eq_comm
  | some id =>
    simp only [Option.some.injEq, forall_eq']
    cases hsc : commandScope[id]? with
    | none =>
      have hmem : id ∉ commandScope := by simp [mem_iff_exists, hsc]
      simp [hmem]
    | some scope =>
      have hmem : id ∈ commandScope := mem_iff_exists.mpr ⟨scope, hsc⟩
      simp only [ok.injEq, hmem, true_and, Option.map_some, hsc, Option.getD_some]
      exact eq_comm

private theorem foldl_fillScope (rcs : List (ResolvedCommand G P)) (sm : ScopeManager S) :
    rcs.foldl (fillScope commandScope) sm =
      { sm with
        commandScope := sm.commandScope.upsertAll {} extendScope
          (rcs.filterMap (scopeMerge commandScope))
        commandCache := sm.commandCache.insertAll
          ((rcs.filterMap (scopeMerge commandScope)).map fun ks => (ks.1, .new)) } := by
  induction rcs generalizing sm with
  | nil => rfl
  | cons rc rcs ih =>
    have hcons : (rc :: rcs).filterMap (scopeMerge commandScope) =
        (scopeMerge commandScope rc).toList ++ rcs.filterMap (scopeMerge commandScope) := by
      rw [filterMap_cons]
      cases scopeMerge commandScope rc <;> rfl
    rw [foldl_cons, ih, hcons, upsertAll_append, map_append, insertAll_append]
    rfl

/-- The loop body of `addCapability` over the allowed commands, as a total function. -/
private def mergeAllowed (commandScope : BTreeMap ScopeKey ResolvedScope)
    (a : RuntimeAuthority G P S) (kc : String × List (ResolvedCommand G P)) :
    RuntimeAuthority G P S :=
  { a with
    scopeManager := kc.2.foldl (fillScope commandScope) a.scopeManager
    allowedCommands := a.allowedCommands.upsert kc.1 [] fun entry => entry ++ kc.2 }

private theorem foldl_mergeAllowed (kcs : List (String × List (ResolvedCommand G P)))
    (a : RuntimeAuthority G P S) :
    kcs.foldl (mergeAllowed commandScope) a =
      { a with
        scopeManager := (kcs.flatMap (·.2)).foldl (fillScope commandScope) a.scopeManager
        allowedCommands :=
          a.allowedCommands.upsertAll [] (fun entry cmds => entry ++ cmds) kcs } := by
  induction kcs generalizing a with
  | nil => rfl
  | cons kc kcs ih =>
    rw [foldl_cons, ih, flatMap_cons, foldl_append]
    rfl

variable {target : Target} {a a' : RuntimeAuthority G P S} {file : CapabilityFile}

/-- A call with a given fuel: it succeeds when the resolution does and the scopes of its entries
are stored. -/
private theorem addCapability_eq_ok {fuel : Nat} : addCapability E fuel target a file = .ok a' ↔
      ∃ r, Resolved.resolve E fuel a.acl (capabilitiesOf file) target = .ok r ∧
        (∀ kc ∈ r.allowedCommands.toList, ∀ rc ∈ kc.2, ScopeStored r.commandScope rc) ∧
        a' = a.merge r := by
  rw [addCapability, bind_eq_ok]
  simp only [unwrap_eq_ok]
  refine exists_congr fun r => and_congr_right fun _ => ?_
  -- the body merges the scopes of one command and appends its entries
  have hbody : ∀ (s : RuntimeAuthority G P S) (kc : String × List (ResolvedCommand G P))
      (s' : RuntimeAuthority G P S),
      (kc.2.foldlM (fillCommandScope r.commandScope) s.scopeManager >>= fun scopeManager =>
        .ok { s with
          scopeManager
          allowedCommands := s.allowedCommands.upsert kc.1 [] fun entry => entry ++ kc.2 }) =
        (.ok s' : Outcome Error _) ↔
      (∀ rc ∈ kc.2, ScopeStored r.commandScope rc) ∧ s' = mergeAllowed r.commandScope s kc := by
    intro s kc s'
    rw [bind_eq_ok]
    simp only [foldlM_eq_ok_iff_foldl (fillCommandScope_eq_ok r.commandScope), ok.injEq]
    constructor
    · rintro ⟨_, ⟨hsto, rfl⟩, rfl⟩
      exact ⟨hsto, rfl⟩
    · rintro ⟨hsto, rfl⟩
      exact ⟨_, ⟨hsto, rfl⟩, rfl⟩
  rw [foldlM_eq_ok_iff_foldl hbody, foldl_mergeAllowed, foldl_fillScope, fillGlobalScope_eq]
  rfl

/-- `addCapability` succeeds with the authority `a'`. -/
def Adds (target : Target) (a : RuntimeAuthority G P S) (file : CapabilityFile)
    (a' : RuntimeAuthority G P S) : Prop :=
  ∃ fuel, addCapability E fuel target a file = .ok a'

/-- **What adding capabilities does**: resolve them, and merge the tables. -/
theorem adds_iff :
    Adds E target a file a' ↔
      ∃ r, Resolves E a.acl (capabilitiesOf file) target r ∧ a' = a.merge r := by
  constructor
  · rintro ⟨fuel, h⟩
    obtain ⟨r, hr, -, rfl⟩ := (addCapability_eq_ok E).mp h
    exact ⟨r, ⟨fuel, hr⟩, rfl⟩
  · rintro ⟨r, ⟨fuel, hr⟩, rfl⟩
    refine ⟨fuel, (addCapability_eq_ok E).mpr ⟨r, hr, ?_, rfl⟩⟩
    obtain ⟨items, -, -, rfl⟩ := (resolves_iff E).mp ⟨fuel, hr⟩
    rintro ⟨command, rcs⟩ hkc rc hrc id hid
    rw [mem_toList_iff_getElem?_eq_some] at hkc
    have hent : rc ∈ (tables E items).allowedCommands[command]?.getD [] := by
      rw [hkc]
      exact hrc
    exact scopeId_mem_commandScope E hent hid

/-! ### What a merge does to the decision -/

theorem mem_deniedCommands_merge {r : Resolved G P} {command : String} :
    command ∈ (a.merge r).deniedCommands ↔
      command ∈ a.deniedCommands ∨ command ∈ r.deniedCommands := by
  have htoList : (∃ cmds, (command, cmds) ∈ r.deniedCommands.toList) ↔
      command ∈ r.deniedCommands := by
    simp only [mem_toList_iff_getElem?_eq_some, mem_iff_exists]
  rw [merge, mem_upsertAll, htoList]

variable (a)

variable (r)

theorem getD_allowedCommands_merge (command : String) :
    (a.merge r).allowedCommands[command]?.getD [] =
      a.allowedCommands[command]?.getD [] ++ r.allowedCommands[command]?.getD [] := by
  rw [merge, getElem?_upsertAll_toList]
  cases r.allowedCommands[command]? <;> simp

open List

variable (command window webview)

theorem allowedEntries_merge (origin : Origin) :
    (a.merge r).allowedEntries E command window webview origin =
      a.allowedEntries E command window webview origin ++
        (new a.acl r : RuntimeAuthority G P S).allowedEntries E command window webview origin := by
  rw [allowedEntries, getD_allowedCommands_merge, filter_append]
  rfl

theorem resolveAccess_merge (origin : Origin) :
    (a.merge r).resolveAccess E command window webview origin =
      if command ∈ a.deniedCommands ∨ command ∈ r.deniedCommands then none
      else answer (a.allowedEntries E command window webview origin ++
        (new a.acl r : RuntimeAuthority G P S).allowedEntries E command window webview origin) := by
  simp only [resolveAccess_eq, mem_deniedCommands_merge, allowedEntries_merge]

variable {r}

theorem isSome_resolveAccess (origin : Origin) :
    (a.resolveAccess E command window webview origin).isSome ↔
      command ∉ a.deniedCommands ∧ a.allowedEntries E command window webview origin ≠ [] := by
  rw [resolveAccess_eq]
  by_cases hmem : command ∈ a.deniedCommands
  · simp [hmem]
  · rw [if_neg hmem, isSome_answer, and_iff_right hmem]

variable {command window webview}

variable {a}

/-! ### Adding at run time and building in -/

/-- Every capability is stored under its own identifier. -/
def KeyedByIdentifier (capabilities : Capabilities) : Prop :=
  ∀ (key : String) (c : Capability), capabilities[key]? = some c → c.identifier = key

open Std.ExtTreeMap

theorem capabilitiesOf_list_vals {capabilities : Capabilities}
    (h : KeyedByIdentifier capabilities) :
    capabilitiesOf (.list capabilities.vals) = capabilities := by
  have hpairs : capabilities.vals.map (fun c => (c.identifier, c)) = capabilities.toList := by
    rw [vals, List.map_map]
    conv_rhs => rw [← List.map_id capabilities.toList]
    refine List.map_congr_left fun kc hkc => ?_
    obtain ⟨key, c⟩ := kc
    have hkey := h key c (mem_toList_iff_getElem?_eq_some.mp hkc)
    exact Prod.ext hkey rfl
  refine ext_getElem? fun key => ?_
  rw [capabilitiesOf, hpairs, getElem?_insertAll, valuesAt_toList]
  cases capabilities[key]? <;> simp

theorem mem_activeCapabilities_union {C₁ C₂ : Capabilities} (hdisj : ∀ key ∈ C₁, key ∉ C₂)
    {c : Capability} : c ∈ activeCapabilities (C₁ ∪ C₂) target ↔
      c ∈ activeCapabilities C₁ target ∨ c ∈ activeCapabilities C₂ target := by
  have hget : (∃ key : String, (C₁ ∪ C₂)[key]? = some c) ↔
      (∃ key : String, C₁[key]? = some c) ∨ ∃ key : String, C₂[key]? = some c := by
    rw [← exists_or]
    refine exists_congr fun key => ?_
    rw [getElem?_union]
    by_cases h₁ : key ∈ C₁
    · have hnone : C₂[key]? = none := getElem?_eq_none (hdisj key h₁)
      simp [hnone]
    · have hnone : C₁[key]? = none := getElem?_eq_none h₁
      simp [hnone]
  simp only [mem_activeCapabilities, hget, or_and_right]

theorem exists_reachedInOrder {acl : Manifests} {capabilities : Capabilities}
    (h : ∀ ce ∈ capabilityEntries capabilities target, ∃ ts, EntryFlattens acl ce.2.identifier ts) :
    ∃ items, ReachedInOrder acl capabilities target items := by
  classical
  let flat : Identifier → List TraversedPermission := fun id =>
    if h : ∃ ts, EntryFlattens acl id ts then h.choose else []
  refine ⟨_, flat, fun ce hce => ?_, rfl⟩
  have hex := h ce hce
  simp only [flat, dif_pos hex]
  exact hex.choose_spec

theorem exists_reachedInOrder_union {acl : Manifests} {C₁ C₂ : Capabilities}
    (hdisj : ∀ key ∈ C₁, key ∉ C₂) {items₁ items₂ : List Reached}
    (h₁ : ReachedInOrder acl C₁ target items₁) (h₂ : ReachedInOrder acl C₂ target items₂) :
    ∃ items, ReachedInOrder acl (C₁ ∪ C₂) target items ∧
      ∀ it, it ∈ items ↔ it ∈ items₁ ∨ it ∈ items₂ := by
  obtain ⟨flat₁, hflat₁, rfl⟩ := id h₁
  obtain ⟨flat₂, hflat₂, rfl⟩ := id h₂
  have hflat : ∀ ce ∈ capabilityEntries (C₁ ∪ C₂) target,
      ∃ ts, EntryFlattens acl ce.2.identifier ts := by
    intro ce hce
    obtain ⟨hc, he⟩ := mem_capabilityEntries.mp hce
    rcases (mem_activeCapabilities_union hdisj).mp hc with hc | hc
    · exact ⟨_, hflat₁ ce (mem_capabilityEntries.mpr ⟨hc, he⟩)⟩
    · exact ⟨_, hflat₂ ce (mem_capabilityEntries.mpr ⟨hc, he⟩)⟩
  obtain ⟨items, hreached⟩ := exists_reachedInOrder hflat
  refine ⟨items, hreached, fun it => ?_⟩
  rw [hreached.mem_iff, h₁.mem_iff, h₂.mem_iff, mem_activeCapabilities_union hdisj]
  exact or_and_right

theorem allowedEntries_tables_ne_nil (acl : Manifests) (items : List Reached)
    (command window webview : String) (origin : Origin) :
    (new acl (tables E items) : RuntimeAuthority G P S).allowedEntries E command window webview
      origin ≠ [] ↔ ∃ it ∈ items, entriesOf E command window webview origin it ≠ [] := by
  have hents := map_withoutScope_tables E items command window webview origin
  rw [ne_eq, ← map_eq_nil_iff]
  refine (not_congr (Eq.congr_left hents)).trans ?_
  rw [flatMap_eq_nil_iff]
  push Not
  rfl

/-- A sequence of successful `addCapability` calls. -/
inductive AddsAll (target : Target) :
    RuntimeAuthority G P S → List CapabilityFile → RuntimeAuthority G P S → Prop
  | nil {a : RuntimeAuthority G P S} : AddsAll target a [] a
  | cons {a b a' : RuntimeAuthority G P S} {file : CapabilityFile} {files : List CapabilityFile}
      (hadd : Adds E target a file b) (hrest : AddsAll target b files a') :
      AddsAll target a (file :: files) a'

variable {files : List CapabilityFile}

theorem exists_addsAll (h : ∀ file ∈ files, ∃ r, Resolves E a.acl (capabilitiesOf file) target r) :
    ∃ a', AddsAll E target a files a' := by
  induction files generalizing a with
  | nil => exact ⟨a, .nil⟩
  | cons file files ih =>
    obtain ⟨r, hr⟩ := h file mem_cons_self
    obtain ⟨a', ha'⟩ := @ih (a.merge r) fun f hf => h f (mem_cons_of_mem _ hf)
    exact ⟨a', .cons ((adds_iff E).mpr ⟨r, hr, rfl⟩) ha'⟩

theorem AddsAll.resolves (h : AddsAll E target a files a') :
    ∀ file ∈ files, ∃ r, Resolves E a.acl (capabilitiesOf file) target r := by
  induction h with
  | nil =>
    intro file hfile
    cases hfile
  | cons hadd _ ih =>
    obtain ⟨r, hr, rfl⟩ := (adds_iff E).mp hadd
    exact forall_mem_cons.mpr ⟨⟨r, hr⟩, ih⟩

/-- **What merges only add to.** A property that a merge has exactly when the old authority or
the new tables have it holds after a sequence of calls exactly when it held before or holds of
the tables of one of the files. -/
theorem AddsAll.iff_of_merge (Q : RuntimeAuthority G P S → Prop)
    (hQ : ∀ (a : RuntimeAuthority G P S) (r : Resolved G P),
      Q (a.merge r) ↔ Q a ∨ Q (new a.acl r)) (h : AddsAll E target a files a') :
    Q a' ↔ Q a ∨ ∃ file ∈ files, ∃ r,
      Resolves E a.acl (capabilitiesOf file) target r ∧ Q (new a.acl r) := by
  induction h with
  | nil => simp
  | @cons a _ _ file _ hadd _ ih =>
    obtain ⟨r, hr, rfl⟩ := (adds_iff E).mp hadd
    have hhead : (∃ r', Resolves E a.acl (capabilitiesOf file) target r' ∧ Q (new a.acl r')) ↔
        Q (new a.acl r) := by
      constructor
      · rintro ⟨r', hr', hQr'⟩
        rwa [hr.unique E hr']
      · intro hQr
        exact ⟨r, hr, hQr⟩
    simp only [mem_cons, exists_eq_or_imp, hhead]
    rw [ih, hQ, or_assoc]
    rfl

theorem AddsAll.isSome_resolveAccess_perm {files' : List CapabilityFile}
    (hperm : files.Perm files') {b b' : RuntimeAuthority G P S} (h : AddsAll E target a files b)
    (h' : AddsAll E target a files' b') (command window webview : String) (origin : Origin) :
    (b.resolveAccess E command window webview origin).isSome =
      (b'.resolveAccess E command window webview origin).isSome := by
  have hden : ∀ (a : RuntimeAuthority G P S) (r : Resolved G P),
      command ∈ (a.merge r).deniedCommands ↔
        command ∈ a.deniedCommands ∨
          command ∈ (new a.acl r : RuntimeAuthority G P S).deniedCommands :=
    fun _ _ => mem_deniedCommands_merge
  have hallow : ∀ (a : RuntimeAuthority G P S) (r : Resolved G P),
      (a.merge r).allowedEntries E command window webview origin ≠ [] ↔
        a.allowedEntries E command window webview origin ≠ [] ∨
          (new a.acl r : RuntimeAuthority G P S).allowedEntries E command window webview
            origin ≠ [] := by
    intro a r
    rw [allowedEntries_merge, ne_eq, append_eq_nil_iff, not_and_or]
  rw [Bool.eq_iff_iff, isSome_resolveAccess, isSome_resolveAccess,
    h.iff_of_merge E (command ∈ ·.deniedCommands) hden,
    h'.iff_of_merge E (command ∈ ·.deniedCommands) hden,
    h.iff_of_merge E (·.allowedEntries E command window webview origin ≠ []) hallow,
    h'.iff_of_merge E (·.allowedEntries E command window webview origin ≠ []) hallow]
  simp only [hperm.mem_iff]

/-- **Adding capabilities at run time decides access like building them in.** For two capability
maps that resolve and share no identifier, the second one can be added to the authority of the
first, their union resolves, and both authorities grant the same requests. In general, calls made
in another order succeed too and grant the same requests. -/
theorem addCapability_decides_like_union {acl : Manifests} {C₁ C₂ : Capabilities}
    {target : Target} {r₁ r₂ : Resolved G P} (hkeyed : KeyedByIdentifier C₂)
    (hdisj : ∀ key ∈ C₁, key ∉ C₂) (h₁ : Resolves E acl C₁ target r₁)
    (h₂ : Resolves E acl C₂ target r₂) :
    (∃ r, Resolves E acl (C₁ ∪ C₂) target r ∧
      ∃ a', Adds E target (new acl r₁ : RuntimeAuthority G P S) (.list C₂.vals) a' ∧
        ∀ command window webview origin,
          (a'.resolveAccess E command window webview origin).isSome =
            ((new acl r : RuntimeAuthority G P S).resolveAccess E command window webview
              origin).isSome) ∧
    ∀ files files' : List CapabilityFile, files.Perm files' → ∀ a',
      AddsAll E target (new acl r₁ : RuntimeAuthority G P S) files a' →
      ∃ a'', AddsAll E target (new acl r₁ : RuntimeAuthority G P S) files' a'' ∧
        ∀ command window webview origin,
          (a'.resolveAccess E command window webview origin).isSome =
            (a''.resolveAccess E command window webview origin).isSome := by
  constructor
  · have hlist := capabilitiesOf_list_vals hkeyed
    have hadd : Adds E target (new acl r₁ : RuntimeAuthority G P S) (.list C₂.vals)
        ((new acl r₁).merge r₂) :=
      (adds_iff E).mpr ⟨r₂, by rw [hlist]; exact h₂, rfl⟩
    obtain ⟨items₁, hitems₁, hres₁, rfl⟩ := (resolves_iff E).mp h₁
    obtain ⟨items₂, hitems₂, hres₂, rfl⟩ := (resolves_iff E).mp h₂
    obtain ⟨items, hitems, hmem⟩ := exists_reachedInOrder_union hdisj hitems₁ hitems₂
    have hres : ∀ it ∈ items, it.Resolvable E := by
      intro it hit
      exact ((hmem it).mp hit).elim (hres₁ it) (hres₂ it)
    refine ⟨tables E items, (resolves_iff E).mpr ⟨items, hitems, hres, rfl⟩, _, hadd, ?_⟩
    intro command window webview origin
    have hden : command ∈ (tables E items).deniedCommands ↔
        command ∈ (tables E items₁).deniedCommands ∨
          command ∈ (tables E items₂).deniedCommands := by
      simp only [mem_deniedCommands_tables, hmem, or_and_right, exists_or]
    rw [Bool.eq_iff_iff, isSome_resolveAccess, isSome_resolveAccess, mem_deniedCommands_merge,
      allowedEntries_merge, allowedEntries_tables_ne_nil, ne_eq, append_eq_nil_iff,
      not_and_or]
    simp only [← ne_eq, allowedEntries_tables_ne_nil, hmem, or_and_right, exists_or]
    exact and_congr_left fun _ => not_congr hden.symm
  · intro files files' hperm a' ha'
    have hresolves := AddsAll.resolves E ha'
    obtain ⟨a'', ha''⟩ :=
      exists_addsAll E fun file hfile => hresolves file (hperm.mem_iff.mpr hfile)
    exact ⟨a'', ha'', fun command window webview origin =>
      AddsAll.isSome_resolveAccess_perm E hperm ha' ha'' command window webview origin⟩

/-- In the sample, denying remote reads at run time and at build time decide the same. -/
theorem sample_decides_like_union : ∃ r₁ r,
    Resolves Sample.patterns Sample.acl Sample.capabilities .linux r₁ ∧
    Resolves Sample.patterns Sample.acl
      (Sample.capabilities ∪ (∅ : Capabilities).insert "no-remote-read" Sample.noRemoteRead)
      .linux r ∧
    ∃ a', Adds Sample.patterns .linux
        (new Sample.acl r₁ : RuntimeAuthority _ _ Sample.scopeTypes)
        (.list (BTreeMap.vals ((∅ : Capabilities).insert "no-remote-read" Sample.noRemoteRead)))
        a' ∧
      ∀ command window webview origin,
        (a'.resolveAccess Sample.patterns command window webview origin).isSome =
          ((new Sample.acl r : RuntimeAuthority _ _ Sample.scopeTypes).resolveAccess
            Sample.patterns command window webview origin).isSome := by
  have hkeyed : KeyedByIdentifier
      ((∅ : Capabilities).insert "no-remote-read" Sample.noRemoteRead) := by
    intro key c hc
    rcases getElem?_insert_eq_some.mp hc with ⟨rfl, rfl⟩ | ⟨-, hc⟩
    · rfl
    · simp at hc
  have hdisj : ∀ key ∈ Sample.capabilities,
      key ∉ (∅ : Capabilities).insert "no-remote-read" Sample.noRemoteRead := by
    intro key hmain hdeny
    simp only [Sample.capabilities, mem_insert, Std.LawfulEqOrd.compare_eq_iff_eq,
      not_mem_empty, or_false] at hmain hdeny
    rw [← hmain] at hdeny
    exact absurd hdeny (by decide)
  have hok₁ : (Resolved.resolve Sample.patterns 2 Sample.acl Sample.capabilities .linux).isOk =
      true := by decide
  have hok₂ : (Resolved.resolve Sample.patterns 2 Sample.acl
      ((∅ : Capabilities).insert "no-remote-read" Sample.noRemoteRead) .linux).isOk = true := by
    decide
  obtain ⟨r₁, hr₁⟩ := isOk_iff.mp hok₁
  obtain ⟨r₂, hr₂⟩ := isOk_iff.mp hok₂
  obtain ⟨r, hr, hadds⟩ :=
    (addCapability_decides_like_union Sample.patterns hkeyed hdisj ⟨2, hr₁⟩ ⟨2, hr₂⟩).1
  exact ⟨r₁, r, ⟨2, hr₁⟩, hr, hadds⟩

/-! ### What a call leaves alone -/

/-- **A runtime capability affects only the commands it names.** A successful call leaves the
answer for every other command as it was; for a command that nothing denies it appends the
entries stemming from the new capabilities that match; and access is lost only for commands they
deny. -/
theorem addCapability_affects_only_named {target : Target} {a a' : RuntimeAuthority G P S}
    {file : CapabilityFile} (h : Adds E target a file a') (command : String) :
    ((∀ c ∈ activeCapabilities (capabilitiesOf file) target,
        ¬ Names a.acl target c (·.allow) command ∧ ¬ Names a.acl target c (·.deny) command) →
      ∀ window webview origin, a'.resolveAccess E command window webview origin =
        a.resolveAccess E command window webview origin) ∧
    ((∀ c ∈ activeCapabilities (capabilitiesOf file) target,
        ¬ Names a.acl target c (·.deny) command) → command ∉ a.deniedCommands →
      ∃ flat : Identifier → List TraversedPermission,
        (∀ ce ∈ capabilityEntries (capabilitiesOf file) target,
          EntryFlattens a.acl ce.2.identifier (flat ce.2.identifier)) ∧
        ∀ window webview origin, ∃ entries,
          a'.resolveAccess E command window webview origin =
            answer ((a.resolveAccess E command window webview origin).getD [] ++ entries) ∧
          entries.map withoutScope = grantedEntries E flat (capabilitiesOf file) target command
            window webview origin) ∧
    (∀ window webview origin, (a.resolveAccess E command window webview origin).isSome →
      a'.resolveAccess E command window webview origin = none →
      ∃ c ∈ activeCapabilities (capabilitiesOf file) target,
        Names a.acl target c (·.deny) command) := by
  obtain ⟨r, hr, rfl⟩ := (adds_iff E).mp h
  obtain ⟨items, hitems, hres, rfl⟩ := (resolves_iff E).mp hr
  have hden := fun h : command ∈ (tables E items).deniedCommands =>
    exists_names_of_mem_deniedCommands E hitems h
  refine ⟨fun hnone window webview origin => ?_, fun hdeny hold => ?_,
    fun window webview origin hsome href => ?_⟩
  · have hnotDenied : command ∉ (tables E items).deniedCommands := by grind
    have hnil : (new a.acl (tables E items) : RuntimeAuthority G P S).allowedEntries E command
        window webview origin = [] := by
      by_contra hne
      have hflat := (exists_entriesOf_iff E hitems hres command window webview origin).mp
      rw [← map_withoutScope_tables, ne_eq, map_eq_nil_iff] at hflat
      obtain ⟨c, hc, -, hnames⟩ := hflat hne
      exact (hnone c hc).1 hnames
    rw [resolveAccess_merge, hnil, append_nil, resolveAccess_eq]
    simp only [hnotDenied, or_false]
  · have hnotDenied :
        ¬ (command ∈ a.deniedCommands ∨ command ∈ (tables E items).deniedCommands) := by
      rintro (hmem | hmem)
      · exact hold hmem
      · obtain ⟨c, hc, hnames⟩ := hden hmem
        exact hdeny c hc hnames
    obtain ⟨flat, hflat, rfl⟩ := hitems
    refine ⟨flat, hflat, fun window webview origin => ?_⟩
    have hents := (map_withoutScope_tables E _ command window webview origin).trans
      (flatMap_entriesOf E flat (capabilitiesOf file) target command window webview origin)
    refine ⟨_, ?_, hents⟩
    rw [resolveAccess_merge, if_neg hnotDenied, resolveAccess_eq E a, if_neg hold, getD_answer]
    rfl
  · obtain ⟨hold, hne⟩ := (isSome_resolveAccess E a command window webview origin).mp hsome
    refine hden (by_contra fun hnotDenied => ?_)
    rw [resolveAccess_merge, if_neg (not_or.mpr ⟨hold, hnotDenied⟩),
      answer_of_ne_nil (append_ne_nil_of_left_ne_nil hne _)] at href
    cases href

/-- In the sample, a capability added at run time grants reading. -/
theorem sample_addCapability_appends : ∃ (a' : RuntimeAuthority String String Sample.scopeTypes)
    (flat : Identifier → List TraversedPermission),
    Adds Sample.patterns .linux (new Sample.acl ⟨∅, ∅, ∅, ∅⟩) (.capability Sample.main) a' ∧
    ∀ window webview origin, ∃ entries,
      a'.resolveAccess Sample.patterns "plugin:fs|read_file" window webview origin =
        answer (((new Sample.acl ⟨∅, ∅, ∅, ∅⟩ :
          RuntimeAuthority _ _ Sample.scopeTypes).resolveAccess Sample.patterns
            "plugin:fs|read_file" window webview origin).getD [] ++ entries) ∧
      entries.map withoutScope = grantedEntries Sample.patterns flat
        (capabilitiesOf (.capability Sample.main)) .linux "plugin:fs|read_file" window webview
        origin := by
  have hok : (addCapability Sample.patterns 2 .linux (new Sample.acl ⟨∅, ∅, ∅, ∅⟩ :
      RuntimeAuthority _ _ Sample.scopeTypes) (.capability Sample.main)).isOk = true := by decide
  obtain ⟨a', ha'⟩ := isOk_iff.mp hok
  obtain ⟨flat, -, happends⟩ := (addCapability_affects_only_named Sample.patterns ⟨2, ha'⟩
    "plugin:fs|read_file").2.1 sample_not_denied not_mem_empty
  exact ⟨a', flat, ⟨2, ha'⟩, happends⟩

/-! ### Calls that fail -/

private theorem fillCommandScope_ne_err {commandScope : BTreeMap ScopeKey ResolvedScope}
    {sm : ScopeManager S} {rc : ResolvedCommand G P} {e : Error} :
    fillCommandScope commandScope sm rc ≠ .err e := by
  unfold fillCommandScope
  cases rc.scopeId with
  | none => simp
  | some id => cases h : commandScope[id]? <;> simp [h]

theorem addCapability_ne_err {fuel : Nat} {e : Error} :
    addCapability E fuel target a file ≠ .err e := by
  refine bind_ne_err unwrap_ne_err fun resolved => ?_
  refine foldlM_ne_err (fun s kc => ?_) _
  refine bind_ne_err (foldlM_ne_err (fun _ _ => fillCommandScope_ne_err) _) ?_
  intro scopeManager
  simp

/-- The call returns instead of panicking or recursing forever: with the merged authority, or
with an error. An error comes with no new authority; the caller is left with `a`. -/
def Returns (target : Target) (a : RuntimeAuthority G P S) (file : CapabilityFile) : Prop :=
  ∃ fuel, (∃ a', addCapability E fuel target a file = .ok a') ∨
    ∃ e, addCapability E fuel target a file = .err e

theorem returns_iff :
    Returns E target a file ↔ ∃ r, Resolves E a.acl (capabilitiesOf file) target r := by
  constructor
  · rintro ⟨fuel, ⟨a', h⟩ | ⟨e, h⟩⟩
    · obtain ⟨r, hr, -⟩ := (adds_iff E).mp ⟨fuel, h⟩
      exact ⟨r, hr⟩
    · exact absurd h (addCapability_ne_err E)
  · rintro ⟨r, hr⟩
    obtain ⟨fuel, h⟩ := (adds_iff E).mpr ⟨r, hr, rfl⟩
    exact ⟨fuel, .inl ⟨_, h⟩⟩

/-- **When adding capabilities returns**: exactly when every permission entry of the active
capabilities can be followed to its end (the manifests, permissions and sets it refers to exist,
and no set contains itself), and the globs and URL patterns parse in each active capability that
reaches a permission naming commands. In every other case the call panics or does not return. -/
theorem addCapability_returns_iff {target : Target} {a : RuntimeAuthority G P S}
    {file : CapabilityFile} : Returns E target a file ↔
      (∀ ce ∈ capabilityEntries (capabilitiesOf file) target,
        ∃ ts, EntryFlattens a.acl ce.2.identifier ts) ∧
      ∀ it : Reached, it.capability ∈ activeCapabilities (capabilitiesOf file) target →
        it.entry ∈ it.capability.permissions →
        EntryReaches a.acl it.entry.identifier it.traversed →
        it.traversed.permission.isActive target → it.Resolvable E := by
  classical
  rw [returns_iff]
  constructor
  · rintro ⟨r, hr⟩
    obtain ⟨items, hitems, hres, -⟩ := (resolves_iff E).mp hr
    refine ⟨fun ce hce => ?_, fun it hc he hreach hact => ?_⟩
    · obtain ⟨flat, hflat, -⟩ := hitems
      exact ⟨_, hflat ce hce⟩
    · exact hres it (hitems.mem_iff.mpr ⟨hc, he, hreach, hact⟩)
  · rintro ⟨hflat, hres⟩
    obtain ⟨items, hitems⟩ := exists_reachedInOrder hflat
    refine ⟨_, (resolves_iff E).mpr ⟨items, hitems, fun it hit => ?_, rfl⟩⟩
    obtain ⟨hc, he, hreach, hact⟩ := hitems.mem_iff.mp hit
    exact hres it hc he hreach hact

/-- A capability that refers to a plugin without a manifest: the call panics, whatever the
fuel. -/
theorem sample_unknown_manifest_panics :
    (∀ fuel, addCapability Sample.patterns fuel .linux
        (new ∅ ⟨∅, ∅, ∅, ∅⟩ : RuntimeAuthority _ _ Sample.scopeTypes) (.capability Sample.main) =
      .panic "called `Result::unwrap()` on an `Err` value") ∧
    ¬ Returns Sample.patterns .linux
      (new ∅ ⟨∅, ∅, ∅, ∅⟩ : RuntimeAuthority _ _ Sample.scopeTypes) (.capability Sample.main) := by
  have hpanic : ∀ fuel, addCapability Sample.patterns fuel .linux
      (new ∅ ⟨∅, ∅, ∅, ∅⟩ : RuntimeAuthority _ _ Sample.scopeTypes) (.capability Sample.main) =
        .panic "called `Result::unwrap()` on an `Err` value" := fun _ => rfl
  refine ⟨hpanic, ?_⟩
  rintro ⟨fuel, ⟨a', h⟩ | ⟨e, h⟩⟩
  · rw [hpanic] at h
    cases h
  · rw [hpanic] at h
    cases h

end RuntimeAuthority

end Tauri.Ipc
