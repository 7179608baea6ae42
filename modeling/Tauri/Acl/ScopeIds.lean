import Tauri.Acl.Tables

/-!
# Scope ids

`Resolved::resolve` counts scope ids through three nested loops. An `Occurrence` says where in
these loops a permission is reached: the position of its capability, the position of the entry in
the capability, and the position of the permission in the flattening of the entry. `numberOccs`
gives the occurrences their ids in order, and `stems` keeps with each table entry the occurrence
it was pushed for.

The ids of later occurrences are larger, so an id **belongs to one occurrence**; the scope stored
under it is the scope of the entry followed by the scope of the permission. A permission that
names no command takes no id and adds the same concatenation to the global scope of its manifest.
-/

namespace Tauri.Acl

open Rust List

/-- Where a permission is reached. -/
structure Occurrence where
  capability : Nat
  entry : Nat
  permission : Nat
  deriving DecidableEq, Repr

/-- The occurrences of one entry: the permissions of its flattening that are active. -/
def entryOccurrences (flat : Identifier → List TraversedPermission) (target : Target)
    (c : Capability × Nat) (e : PermissionEntry × Nat) : List (Occurrence × Reached) :=
  ((flat e.1.identifier).zipIdx.filter fun t => t.1.permission.isActive target).map
    fun t => (⟨c.2, e.2, t.2⟩, ⟨c.1, e.1, t.1⟩)

/-- The occurrences of all entries, in the order they are visited. -/
def occurrences (flat : Identifier → List TraversedPermission) (capabilities : Capabilities)
    (target : Target) : List (Occurrence × Reached) :=
  (activeCapabilities capabilities target).zipIdx.flatMap fun c =>
    c.1.permissions.zipIdx.flatMap fun e => entryOccurrences flat target c e

/-- `occs` are the occurrences of the permissions that the active capabilities reach. -/
def OccursInOrder (acl : Manifests) (capabilities : Capabilities) (target : Target)
    (occs : List (Occurrence × Reached)) : Prop :=
  ∃ flat : Identifier → List TraversedPermission,
    (∀ ce ∈ capabilityEntries capabilities target,
      EntryFlattens acl ce.2.identifier (flat ce.2.identifier)) ∧
    occs = occurrences flat capabilities target

/-! ### Occurrences are positions -/

theorem flatMap_zipIdx {α β : Type} (l : List α) (f : α → List β) :
    (l.zipIdx.flatMap fun x => f x.1) = l.flatMap f := by
  rw [← flatMap_map, zipIdx_map_fst]

variable (flat : Identifier → List TraversedPermission)

theorem map_snd_entryOccurrences (target : Target) (c : Capability × Nat)
    (e : PermissionEntry × Nat) :
    (entryOccurrences flat target c e).map Prod.snd =
      reachedVia target (c.1, e.1) (flat e.1.identifier) := by
  have hfilt := filter_map (f := (Prod.fst : TraversedPermission × Nat → _))
    (p := fun t => t.permission.isActive target) (l := (flat e.1.identifier).zipIdx)
  rw [zipIdx_map_fst] at hfilt
  rw [reachedVia, hfilt, entryOccurrences, map_map, map_map]
  rfl

theorem map_snd_occurrences (capabilities : Capabilities) (target : Target) :
    (occurrences flat capabilities target).map Prod.snd =
      (capabilityEntries capabilities target).flatMap fun ce =>
        reachedVia target ce (flat ce.2.identifier) := by
  have hents : ∀ c : Capability × Nat,
      (c.1.permissions.zipIdx.flatMap fun e => reachedVia target (c.1, e.1) (flat e.1.identifier)) =
        c.1.permissions.flatMap fun e => reachedVia target (c.1, e) (flat e.identifier) :=
    fun c => flatMap_zipIdx _ fun e => reachedVia target (c.1, e) (flat e.identifier)
  rw [occurrences, capabilityEntries, map_flatMap, flatMap_assoc]
  simp only [map_flatMap, map_snd_entryOccurrences, hents, flatMap_map]
  exact flatMap_zipIdx _ fun c : Capability =>
    c.permissions.flatMap fun e => reachedVia target (c, e) (flat e.identifier)

theorem nodup_flatMap_of_tag {α β : Type} (tag : β → Nat) {l : List (α × Nat)}
    (hl : (l.map Prod.snd).Nodup) {f : α × Nat → List β} (hf : ∀ x ∈ l, (f x).Nodup)
    (htag : ∀ x ∈ l, ∀ y ∈ f x, tag y = x.2) : (l.flatMap f).Nodup := by
  refine nodup_flatMap.mpr ⟨hf, ?_⟩
  refine (pairwise_map.mp hl).imp_of_mem fun hx hx' hne y hy hy' => hne ?_
  rw [← htag _ hx y hy, ← htag _ hx' y hy']

/-- **An occurrence is met once.** -/
theorem nodup_map_fst_occurrences (capabilities : Capabilities) (target : Target) :
    ((occurrences flat capabilities target).map Prod.fst).Nodup := by
  have hidx : ∀ {α : Type} (l : List α), (l.zipIdx.map Prod.snd).Nodup := by
    intro α l
    rw [zipIdx_map_snd]
    exact nodup_range'
  have hperms : ∀ c e, ((entryOccurrences flat target c e).map Prod.fst).Nodup := by
    intro c e
    rw [entryOccurrences, map_map]
    have hinj : Function.Injective fun i : Nat => (⟨c.2, e.2, i⟩ : Occurrence) := by
      intro i i' h
      exact congrArg Occurrence.permission h
    have hsub := (filter_sublist (p := fun t : TraversedPermission × Nat =>
      t.1.permission.isActive target) (l := (flat e.1.identifier).zipIdx)).map Prod.snd
    have hnd := (hsub.nodup (hidx _)).map hinj
    rwa [map_map] at hnd
  have htag : ∀ c e, ∀ o ∈ (entryOccurrences flat target c e).map Prod.fst,
      o.capability = c.2 ∧ o.entry = e.2 := by
    intro c e o ho
    simp only [entryOccurrences, map_map, mem_map] at ho
    obtain ⟨t, -, rfl⟩ := ho
    exact ⟨rfl, rfl⟩
  rw [occurrences, map_flatMap]
  refine nodup_flatMap_of_tag Occurrence.capability (hidx _) (fun c _ => ?_) fun c _ o ho => ?_ <;>
    grind

/-! ### Numbering -/

/-- The occurrences with their scope ids, counting from `n`. -/
def numberOccs : Nat → List (Occurrence × Reached) →
    List (Occurrence × Option ScopeKey × Reached)
  | _, [] => []
  | n, (o, it) :: occs => (o, it.scopeId n, it) :: numberOccs (it.nextScopeId n) occs

theorem map_snd_numberOccs (n : Nat) (occs : List (Occurrence × Reached)) :
    (numberOccs n occs).map Prod.snd = numberFrom n (occs.map Prod.snd) := by
  induction occs generalizing n with
  | nil => rfl
  | cons x occs ih => rw [numberOccs, map_cons, ih, map_cons, numberFrom]

theorem map_fst_numberOccs (n : Nat) (occs : List (Occurrence × Reached)) :
    (numberOccs n occs).map Prod.fst = occs.map Prod.fst := by
  induction occs generalizing n with
  | nil => rfl
  | cons x occs ih => rw [numberOccs, map_cons, ih, map_cons]

open Reached

theorem scopeId_eq_some {n id : Nat} {it : Reached} :
    it.scopeId n = some id ↔ it.takesScope = true ∧ n + 1 = id := by
  simp [scopeId]

variable {occs : List (Occurrence × Reached)}

theorem mem_numberOccs {n : Nat} {x : Occurrence × Option ScopeKey × Reached}
    (h : x ∈ numberOccs n occs) :
    (x.1, x.2.2) ∈ occs ∧ (∀ id : Nat, x.2.1 = some id → n < id) ∧
      x.2.1.isSome = x.2.2.takesScope := by
  induction occs generalizing n with
  | nil => cases h
  | cons y occs ih =>
    have hle : n ≤ y.2.nextScopeId n := by
      rw [nextScopeId]
      split_ifs <;> omega
    rcases mem_cons.mp h with rfl | h
    · refine ⟨mem_cons_self, ?_, ?_⟩
      · intro id hid
        have hnext := (scopeId_eq_some.mp hid).2
        omega
      · simp [scopeId, apply_ite]
    · obtain ⟨hmem, hlt, hsome⟩ := ih h
      exact ⟨mem_cons_of_mem _ hmem, fun id hid => hle.trans_lt (hlt id hid), hsome⟩

/-- **An id is given once.** -/
theorem numberOccs_inj {n : Nat} {x y : Occurrence × Option ScopeKey × Reached}
    (hx : x ∈ numberOccs n occs) (hy : y ∈ numberOccs n occs) {id : Nat} (hxid : x.2.1 = some id)
    (hyid : y.2.1 = some id) : x = y := by
  induction occs generalizing n with
  | nil => cases hx
  | cons z occs ih =>
    -- the ids behind the first occurrence are larger than its own
    have hfirst : ∀ w ∈ numberOccs (z.2.nextScopeId n) occs, w.2.1 = some id →
        z.2.scopeId n ≠ some id := by
      intro w hw hwid hzid
      have hlt := (mem_numberOccs hw).2.1 id hwid
      obtain ⟨htakes, hnext⟩ := scopeId_eq_some.mp hzid
      rw [nextScopeId, if_pos htakes] at hlt
      omega
    rcases mem_cons.mp hx with rfl | hx' <;> rcases mem_cons.mp hy with rfl | hy'
    · rfl
    · exact absurd hxid (hfirst y hy' hyid)
    · exact absurd hyid (hfirst x hx' hxid)
    · exact ih hx' hy'

/-! ### Where table entries stem from -/

/-- The scope of the entry followed by the scope of the permission. -/
def Reached.scopeValues (it : Reached) : ResolvedScope where
  allow := it.entry.scope.allow.getD [] ++ it.traversed.permission.scope.allow.getD []
  deny := it.entry.scope.deny.getD [] ++ it.traversed.permission.scope.deny.getD []

theorem getD_extendValues (a b : Option (List Value)) :
    (extendValues (extendValues none a) b).getD [] = a.getD [] ++ b.getD [] := by
  cases a <;> cases b <;> simp [extendValues]

theorem resolvedScope_resolved (it : Reached) : it.resolved.resolvedScope = it.scopeValues := by
  simp only [ResolvedPermission.resolvedScope, resolved, resolvedPermission,
    getD_extendValues, scopeValues]

/-- The values that some occurrences add to the global scope of a manifest, in order. -/
def globalValues (key : String) (occs : List (Occurrence × Reached)) : List ResolvedScope :=
  (occs.filter fun x => x.2.resolved.isGlobal && x.2.traversed.key == key).map
    fun x => x.2.scopeValues

/-- The concatenation of some scopes, for what they allow and what they deny. -/
def concatScopes (scopes : List ResolvedScope) : ResolvedScope where
  allow := scopes.flatMap (·.allow)
  deny := scopes.flatMap (·.deny)

section Stems

variable {G P : Type} (E : Patterns G P)

/-- The entries of a table, with the occurrence that each stems from and its command string. -/
def stems (select : Commands → List String) (occs : List (Occurrence × Reached)) :
    List (Occurrence × String × ResolvedCommand G P) :=
  (numberOccs 0 occs).flatMap fun x => (commandPushes E select x.2).map fun push => (x.1, push)

theorem map_snd_stems (select : Commands → List String) (occs : List (Occurrence × Reached)) :
    (stems E select occs).map Prod.snd =
      (numberFrom 0 (occs.map Prod.snd)).flatMap (commandPushes E select) := by
  rw [← map_snd_numberOccs, flatMap_map, stems, map_flatMap]
  simp only [map_map, Function.comp_def, map_id']

theorem exists_number_of_mem_stems {select : Commands → List String}
    {s : Occurrence × String × ResolvedCommand G P} (hs : s ∈ stems E select occs) :
    ∃ x ∈ numberOccs 0 occs, s.1 = x.1 ∧ s.2.2.scopeId = x.2.1 := by
  simp only [stems, commandPushes, commandEntries, mem_flatMap, mem_map] at hs
  obtain ⟨x, hx, push, ⟨_, _, _, ⟨_, _, rfl⟩, rfl⟩, rfl⟩ := hs
  exact ⟨x, hx, rfl, rfl⟩

theorem getElem?_commandScope_tables {id : Nat} {scope : ResolvedScope} :
    (tables E (occs.map Prod.snd)).commandScope[id]? = some scope ↔
      ∃ x ∈ numberOccs 0 occs, x.2.1 = some id ∧ scope = x.2.2.scopeValues := by
  have hmem : ∀ w, w ∈ valuesAt id ((numberFrom 0 (occs.map Prod.snd)).filterMap scopePush) ↔
      ∃ x ∈ numberOccs 0 occs, x.2.1 = some id ∧ w = x.2.2.scopeValues := by
    intro w
    simp only [mem_valuesAt, mem_filterMap, ← map_snd_numberOccs, mem_map, scopePush,
      Option.map_eq_some_iff, Prod.mk.injEq, resolvedScope_resolved]
    constructor
    · rintro ⟨_, ⟨x, hx, rfl⟩, _, hid, rfl, rfl⟩
      exact ⟨x, hx, hid, rfl⟩
    · rintro ⟨x, hx, hid, rfl⟩
      exact ⟨x.2, ⟨x, hx, rfl⟩, id, hid, rfl, rfl⟩
  rw [← hmem, tables, BTreeMap.getElem?_insertAll, Std.ExtTreeMap.getElem?_empty, Option.or_none]
  refine ⟨mem_of_getLast?, fun hsc => ?_⟩
  -- every scope stored under the id is the one of its occurrence
  obtain ⟨last, hlast⟩ := Option.ne_none_iff_exists'.mp
    (fun h => ne_nil_of_mem hsc (getLast?_eq_none_iff.mp h))
  obtain ⟨x, hx, hxid, rfl⟩ := (hmem scope).mp hsc
  obtain ⟨y, hy, hyid, rfl⟩ := (hmem last).mp (mem_of_getLast? hlast)
  rw [hlast, numberOccs_inj hx hy hxid hyid]

variable (occs : List (Occurrence × Reached))

theorem valuesAt_globalPush (key : String) :
    valuesAt key ((occs.map Prod.snd).filterMap globalPush) =
      (occs.filter fun x => x.2.resolved.isGlobal && x.2.traversed.key == key).map
        fun x => x.2.resolved.scope := by
  induction occs with
  | nil => rfl
  | cons x occs ih =>
    cases hglob : x.2.resolved.isGlobal with
    | false => simpa [globalPush, hglob] using ih
    | true =>
      by_cases hkey : x.2.traversed.key = key <;>
        simpa [globalPush, hglob, hkey, valuesAt_cons] using ih

theorem foldl_extendScopes (scopes : List Scopes) (acc : ResolvedScope) :
    scopes.foldl ResolvedScope.extendScopes acc =
      ⟨acc.allow ++ scopes.flatMap fun s => s.allow.getD [],
        acc.deny ++ scopes.flatMap fun s => s.deny.getD []⟩ := by
  induction scopes generalizing acc with
  | nil => simp
  | cons _ _ ih => simp [ih, ResolvedScope.extendScopes]

theorem getElem?_globalScope_tables (key : String) :
    (tables E (occs.map Prod.snd)).globalScope[key]? =
      if globalValues key occs = [] then none else some (concatScopes (globalValues key occs)) := by
  rw [tables, Std.ExtTreeMap.getElem?_map, BTreeMap.getElem?_pushAll, valuesAt_globalPush]
  have hnil : (occs.filter fun x => x.2.resolved.isGlobal && x.2.traversed.key == key).map
      (fun x => x.2.resolved.scope) = [] ↔ globalValues key occs = [] := by
    rw [globalValues, map_eq_nil_iff, map_eq_nil_iff]
  simp only [hnil, Std.ExtTreeMap.getElem?_empty]
  split_ifs with hemp
  · rfl
  · rw [Option.map_some, Option.getD_none, nil_append, foldl_extendScopes, globalValues,
      concatScopes, flatMap_map, flatMap_map, flatMap_map, flatMap_map]
    simp only [← resolvedScope_resolved, ResolvedPermission.resolvedScope, nil_append]

/-- **Scope ids.** A successful resolution visits the occurrences of the reached permissions in
order. Every entry of its tables stems from one of them. An entry with an id finds there the
scope of its capability entry followed by the scope of its permission, and carries the same id as
another one exactly when both stem from the same occurrence. Scopes are stored for occurrences
that name commands only; the others add theirs, in order, to the global scope of their manifest. -/
theorem resolve_scope_ids {acl : Manifests} {capabilities : Capabilities} {target : Target}
    {r : Resolved G P} (hr : Resolves E acl capabilities target r) :
    ∃ occs, OccursInOrder acl capabilities target occs ∧ (occs.map Prod.fst).Nodup ∧
      r.allowedCommands = BTreeMap.pushAll ∅ ((stems E (·.allow) occs).map Prod.snd) ∧
      r.deniedCommands = BTreeMap.pushAll ∅ ((stems E (·.deny) occs).map Prod.snd) ∧
      (∀ s ∈ stems E (·.allow) occs ++ stems E (·.deny) occs, ∀ id : ScopeKey,
        s.2.2.scopeId = some id →
          ∃ it, (s.1, it) ∈ occs ∧ r.commandScope[id]? = some it.scopeValues) ∧
      (∀ s ∈ stems E (·.allow) occs ++ stems E (·.deny) occs,
        ∀ s' ∈ stems E (·.allow) occs ++ stems E (·.deny) occs, ∀ id : ScopeKey,
          s.2.2.scopeId = some id → (s'.2.2.scopeId = some id ↔ s'.1 = s.1)) ∧
      (∀ (id : ScopeKey) scope, r.commandScope[id]? = some scope → ∃ o it, (o, it) ∈ occs ∧
        it.resolved.isGlobal = false ∧ scope = it.scopeValues) ∧
      ∀ key : String, r.globalScope[key]? = if globalValues key occs = [] then none
        else some (concatScopes (globalValues key occs)) := by
  obtain ⟨items, ⟨flat, hflat, hitems⟩, -, rfl⟩ := (resolves_iff E).mp hr
  rw [← map_snd_occurrences] at hitems
  subst hitems
  have hstem : ∀ s ∈ stems E (·.allow) (occurrences flat capabilities target) ++
      stems E (·.deny) (occurrences flat capabilities target),
      ∃ x ∈ numberOccs 0 (occurrences flat capabilities target),
        s.1 = x.1 ∧ s.2.2.scopeId = x.2.1 := by
    intro s hs
    rcases mem_append.mp hs with hs | hs <;> exact exists_number_of_mem_stems E hs
  have hnd := nodup_map_fst_occurrences flat capabilities target
  refine ⟨occurrences flat capabilities target, ⟨flat, hflat, rfl⟩, hnd, ?_, ?_, ?_, ?_, ?_,
    getElem?_globalScope_tables E _⟩
  · rw [map_snd_stems]
    rfl
  · rw [map_snd_stems]
    rfl
  · intro s hs id hid
    obtain ⟨x, hx, hocc, hsc⟩ := hstem s hs
    refine ⟨x.2.2, hocc ▸ (mem_numberOccs hx).1, ?_⟩
    exact (getElem?_commandScope_tables E).mpr ⟨x, hx, hsc.symm.trans hid, rfl⟩
  · intro s hs s' hs' id hid
    obtain ⟨x, hx, hocc, hsc⟩ := hstem s hs
    obtain ⟨x', hx', hocc', hsc'⟩ := hstem s' hs'
    rw [hsc', hocc', hocc]
    constructor
    · intro hid'
      rw [numberOccs_inj hx' hx hid' (hsc.symm.trans hid)]
    · intro heq
      -- an occurrence is numbered once
      have hfst : ((numberOccs 0 (occurrences flat capabilities target)).map Prod.fst).Nodup := by
        rw [map_fst_numberOccs]
        exact hnd
      rw [inj_on_of_nodup_map hfst hx' hx heq]
      exact hsc.symm.trans hid
  · intro id scope hsc
    obtain ⟨x, hx, hid, rfl⟩ := (getElem?_commandScope_tables E).mp hsc
    obtain ⟨hmem, -, htakes⟩ := mem_numberOccs hx
    refine ⟨x.1, x.2.2, hmem, ?_, rfl⟩
    rw [hid, Option.isSome_some, eq_comm, takesScope, Bool.and_eq_true] at htakes
    simpa using htakes.1

end Stems

namespace Sample

/-- A manifest with a permission that names a command and one that only carries a scope. -/
def scopedManifest : Manifest where
  permissions := ((∅ : BTreeMap String Permission).insert "read"
    { identifier := "read", commands := { allow := ["read"] },
      scope := { allow := some [.string "/notes"] } }).insert
    "scope" { identifier := "scope", scope := { deny := some [.string "/private"] } }

def scopedAcl : Manifests := (∅ : Manifests).insert "fs" scopedManifest

/-- A capability that refers to the same permission twice, once with a scope of its own. -/
def scopedCapability : Capability where
  identifier := "main"
  windows := ["main"]
  permissions := [.permissionRef ⟨"fs:read", some 2, by decide⟩,
    .extendedPermission ⟨"fs:read", some 2, by decide⟩ { allow := some [.string "/shared"] },
    .permissionRef ⟨"fs:scope", some 2, by decide⟩]

def scopedCapabilities : Capabilities := (∅ : Capabilities).insert "main" scopedCapability

/-- The two references to one permission are two occurrences with two ids. -/
theorem resolve_scope_ids_twice : ∃ r : Resolved String String,
    Resolves literalPatterns scopedAcl scopedCapabilities .linux r ∧
    (∃ occs, OccursInOrder scopedAcl scopedCapabilities .linux occs ∧
      r.allowedCommands =
        BTreeMap.pushAll ∅ ((stems literalPatterns (·.allow) occs).map Prod.snd) ∧
      ∀ s ∈ stems literalPatterns (·.allow) occs ++ stems literalPatterns (·.deny) occs,
        ∀ s' ∈ stems literalPatterns (·.allow) occs ++ stems literalPatterns (·.deny) occs,
        ∀ id : ScopeKey, s.2.2.scopeId = some id → (s'.2.2.scopeId = some id ↔ s'.1 = s.1)) ∧
    (r.allowedCommands["plugin:fs|read"]?.getD []).map (·.scopeId) = [some 1, some 2] := by
  have hok : (Resolved.resolve literalPatterns 0 scopedAcl scopedCapabilities .linux).isOk = true :=
    rfl
  obtain ⟨r, hr⟩ := Outcome.isOk_iff.mp hok
  obtain ⟨occs, hoccs, -, hallow, -, -, hids, -⟩ := resolve_scope_ids literalPatterns ⟨0, hr⟩
  refine ⟨r, ⟨0, hr⟩, ⟨occs, hoccs, hallow, hids⟩, ?_⟩
  have htable : ((((Resolved.resolve literalPatterns 0 scopedAcl scopedCapabilities .linux).getD
      ⟨∅, ∅, ∅, ∅⟩).allowedCommands["plugin:fs|read"]?.getD []).map (·.scopeId)) =
        [some 1, some 2] := rfl
  rwa [hr] at htable

end Sample

end Tauri.Acl
