import Tauri.Acl.References
import Tauri.Acl.Tables

/-!
# Validation of capabilities at build time

The build script of an application checks, before anything is resolved, that the permission
entries of its capabilities exist. The check does not follow permission sets; it reads the keys
of the manifests. It **predicts the resolver**: `permissionExists_iff` compares one entry with
`entryReference`, and `resolve_returnsOr` carries the errors of the entries through the loops of
the resolver. Where sets and patterns have no errors of their own, these are the only ones left.
-/

namespace Tauri.Acl

open Rust List Outcome

/-! ### The check -/

/-- Whether the manifests know the permission; `default` is always treated as valid. -/
def permissionExists (acl : Manifests) (permissionId : Identifier) : Bool :=
  let permissionName := permissionId.getBase
  (acl[manifestKey permissionId]?.map fun manifest =>
    permissionName = "default" || manifest.permissions.contains permissionName ||
      manifest.permissionSets.contains permissionName).getD false

/-- The identifiers that the error message suggests. -/
def availablePermissions (acl : Manifests) : List String :=
  acl.toList.flatMap fun (key, manifest) =>
    let keyPart := if key = appAclKey then "" else key ++ ":"
    (if manifest.defaultPermission.isSome then [keyPart ++ "default"] else []) ++
      manifest.permissions.keys.map (keyPart ++ ·) ++
      manifest.permissionSets.keys.map (keyPart ++ ·)

/-- The error message for an unknown permission. -/
def permissionNotFound (acl : Manifests) (permissionId : Identifier) : String :=
  "Permission " ++ permissionId.inner ++ " not found, expected one of " ++
    ", ".intercalate (availablePermissions acl)

/-- `validate_capabilities`, for the target of the build. -/
def validateCapabilities (acl : Manifests) (capabilities : Capabilities) (target : Target) :
    Except String Unit :=
  forM capabilities.vals fun capability =>
    if capability.isActive target then
      forM capability.permissions fun permissionEntry =>
        if permissionExists acl permissionEntry.identifier then .ok ()
        else .error (permissionNotFound acl permissionEntry.identifier)
    else .ok ()

variable {acl : Manifests}

theorem validateCapabilities_eq_ok {capabilities : Capabilities} {target : Target} :
    validateCapabilities acl capabilities target = .ok () ↔
      ∀ ce ∈ capabilityEntries capabilities target,
        permissionExists acl ce.2.identifier = true := by
  have hent : ∀ e : PermissionEntry, (if permissionExists acl e.identifier then .ok ()
      else .error (permissionNotFound acl e.identifier) : Except String Unit) = .ok () ↔
        permissionExists acl e.identifier = true := by
    intro e
    cases permissionExists acl e.identifier <;> simp
  have hcap : ∀ c : Capability, (if c.isActive target then
      forM c.permissions fun e => if permissionExists acl e.identifier then .ok ()
        else .error (permissionNotFound acl e.identifier)
      else .ok () : Except String Unit) = .ok () ↔
        (c.isActive target = true → ∀ e ∈ c.permissions,
          permissionExists acl e.identifier = true) := by
    intro c
    cases c.isActive target <;> simp [except_forM_eq_ok, hent]
  simp only [validateCapabilities, except_forM_eq_ok, hcap, mem_capabilityEntries,
    activeCapabilities, mem_filter]
  exact ⟨fun h ce ⟨⟨hc, hact⟩, he⟩ => h ce.1 hc hact ce.2 he,
    fun h c hc hact e he => h (c, e) ⟨⟨hc, hact⟩, he⟩⟩

/-! ### The errors of the resolver -/

/-- The errors about a manifest or a permission that is not known. -/
def Error.isUnknown : Error → Bool
  | .unknownManifest _ _ => true
  | .unknownPermission _ _ => true
  | _ => false

/-- **The check of an entry is the first step of the resolver.** -/
theorem permissionExists_iff {id : Identifier} :
    permissionExists acl id = true ↔ ∃ ref, entryReference id acl = .ok ref := by
  simp only [permissionExists, entryReference]
  cases acl[manifestKey id]? with
  | none => simp
  | some manifest =>
    simp only [Option.map_some, Option.getD_some, Std.ExtTreeMap.contains_eq_isSome_getElem?]
    by_cases hdef : id.getBase = "default"
    · cases manifest.defaultPermission <;> simp [hdef]
    · cases manifest.permissions[id.getBase]? <;>
        cases manifest.permissionSets[id.getBase]? <;> simp [hdef]

theorem isUnknown_of_entryReference {id : Identifier} {e : Error}
    (h : entryReference id acl = .err e) : e.isUnknown = true := by
  simp only [entryReference] at h
  cases hm : acl[manifestKey id]? with
  | none =>
    rw [hm] at h
    cases h
    rfl
  | some manifest =>
    rw [hm] at h
    dsimp only at h
    by_cases hdef : id.getBase = "default"
    · cases hd : manifest.defaultPermission <;> simp [hdef, hd] at h
    · cases hs : manifest.permissionSets[id.getBase]? <;>
        cases hp : manifest.permissions[id.getBase]? <;> simp [hdef, hs, hp] at h
      exact h ▸ rfl

/-- The members of the declared sets all stand for something. -/
def MembersResolve (acl : Manifests) : Prop :=
  ∀ node : DeclaredSet acl, ∀ perm ∈ node.1.set.permissions,
    ∃ ref, setMember acl node.1 perm = .ok ref

section Members

variable {acl : Manifests}

variable (h : MembersResolve acl)
include h

theorem MembersResolve.membersValid : MembersValid acl := by
  intro node perm hperm
  obtain ⟨ref, href⟩ := h node perm hperm
  cases hid : Identifier.tryFrom perm with
  | error e => simp [setMember, hid] at href
  | ok id => exact ⟨id, rfl⟩

theorem MembersResolve.not_setUnresolvable {node : SetNode} (hnode : node.Declared acl) :
    ¬ SetUnresolvable acl node := by
  intro hunres
  induction hunres with
  | member hperm herr =>
    obtain ⟨ref, href⟩ := h ⟨_, hnode⟩ _ hperm
    rw [href] at herr
    cases herr
  | set _ href _ ih => exact ih (setMember_declared hnode href)

theorem MembersResolve.entryUnresolvable_iff {id : Identifier} :
    EntryUnresolvable acl id ↔ ∃ e, entryReference id acl = .err e := by
  refine ⟨?_, .inl⟩
  rintro (herr | ⟨node, href, hunres⟩)
  · exact herr
  · exact absurd hunres (h.not_setUnresolvable (entryReference_declared href))

/-- With enough fuel, an entry has permissions where the check accepts it and is unknown where the
check rejects it. -/
theorem MembersResolve.exists_getPermissions (hwf : WellFounded (Refers acl)) (id : Identifier) :
    ∃ fuel, ∀ fuel', fuel ≤ fuel' →
      (getPermissions fuel' id acl).ReturnsOr
        fun e => e.isUnknown = true ∧ permissionExists acl id = false := by
  obtain ⟨fuel, hrets⟩ := exists_getPermissions_returns hwf h.membersValid id
  refine ⟨fuel, fun fuel' hle => ?_⟩
  rcases hrets with ⟨e, herr, hunres⟩ | ⟨ts, hts, -⟩
  · obtain ⟨e', href⟩ := h.entryUnresolvable_iff.mp hunres
    have hsame : getPermissions fuel' id acl = .err e' := by
      rw [getPermissions, href, err_bind]
    refine .inr ⟨e', hsame, isUnknown_of_entryReference href, ?_⟩
    rw [← Bool.not_eq_true, permissionExists_iff, href]
    rintro ⟨ref, hok⟩
    cases hok
  · exact .inl ⟨ts, (@getPermissions_mono acl _ _ hle id).eq_ok hts⟩

end Members

/-! ### Patterns -/

section Patterns

variable {G P : Type} (E : Patterns G P)

/-- The window and webview globs and the remote URL patterns of the capability are valid. -/
structure PatternsValid (capability : Capability) : Prop where
  windows : ∀ pattern ∈ capability.windows, ∃ g, E.newGlob pattern = .ok g
  webviews : ∀ pattern ∈ capability.webviews, ∃ g, E.newGlob pattern = .ok g
  urls : ∀ url ∈ capability.remoteUrls, ∃ p, E.parseUrl url = .ok p

variable {E}

theorem exists_parseGlobPatterns {raw : List String}
    (h : ∀ pattern ∈ raw, ∃ g, E.newGlob pattern = .ok g) :
    ∃ patterns, parseGlobPatterns E raw = .ok patterns := by
  refine exists_foldlM_eq_ok (fun pattern hpat patterns => ?_) []
  obtain ⟨g, hg⟩ := h pattern ((mem_insertionSort _).mp hpat)
  exact ⟨_, by rw [newGlobPattern, hg, ok_bind]⟩

theorem PatternsValid.parses {c : Capability} (h : PatternsValid E c) : Parses E c := by
  have hglobs :=
    And.intro (exists_parseGlobPatterns h.windows) (exists_parseGlobPatterns h.webviews)
  have hctxs : ∃ contexts, executionContexts E c = .ok contexts := by
    rw [executionContexts]
    cases hremote : c.remote with
    | none => exact ⟨_, rfl⟩
    | some =>
      refine exists_foldlM_eq_ok (fun url hurl contexts => ?_) _
      obtain ⟨p, hp⟩ := h.urls url (by simpa [Capability.remoteUrls, hremote] using hurl)
      exact ⟨_, by rw [remoteContext, hp, ok_bind]⟩
  obtain ⟨contexts, hok⟩ := hctxs
  exact ⟨contexts, hok, fun _ => hglobs⟩

variable (E)

/-- **The loops of the resolver add no error of their own**: where the capabilities parse, it
returns, and its errors are those of the entries. -/
theorem resolve_returnsOr {fuel : Nat} {capabilities : Capabilities} {target : Target}
    {Q : Error → Prop} (hpar : ∀ c ∈ activeCapabilities capabilities target, Parses E c)
    (hents : ∀ ce ∈ capabilityEntries capabilities target,
      (getPermissions fuel ce.2.identifier acl).ReturnsOr Q) :
    (Resolved.resolve E fuel acl capabilities target).ReturnsOr Q := by
  refine ReturnsOr.bind (ReturnsOr.foldlM (fun c hc st => ?_) _)
    fun st => .inl ⟨_, rfl⟩
  refine ReturnsOr.foldlM (fun e he st => ?_) st
  refine (hents (c, e) (mem_capabilityEntries.mpr ⟨hc, he⟩)).bind fun ts => ?_
  refine ReturnsOr.foldlM (fun t _ st => ?_) st
  exact .inl (@exists_resolvePermission_eq_ok G P E ⟨c, e, t⟩ st fun _ => hpar c hc)

theorem MembersResolve.exists_fuel (h : MembersResolve acl) (hwf : WellFounded (Refers acl))
    (ces : List (Capability × PermissionEntry)) :
    ∃ fuel, ∀ fuel', fuel ≤ fuel' → ∀ ce ∈ ces, (getPermissions fuel' ce.2.identifier acl).ReturnsOr
      fun e => e.isUnknown = true ∧ permissionExists acl ce.2.identifier = false := by
  induction ces with
  | nil => exact ⟨0, fun _ _ ce hce => absurd hce not_mem_nil⟩
  | cons ce ces ih =>
    obtain ⟨fuel, hfuel⟩ := ih
    obtain ⟨fuel₀, hfuel₀⟩ := h.exists_getPermissions hwf ce.2.identifier
    refine ⟨max fuel₀ fuel, fun fuel' hle ce' hce' => ?_⟩
    have hle₀ : fuel₀ ≤ fuel' := by omega
    have hle₁ : fuel ≤ fuel' := by omega
    rcases mem_cons.mp hce' with rfl | hce'
    · exact hfuel₀ fuel' hle₀
    · exact hfuel fuel' hle₁ ce' hce'

/-- **Validation predicts resolution.** Where the permission sets are well founded and their
members resolve, and where the patterns of the capabilities are valid, resolution returns for
every fuel from some point on, and validation succeeds exactly when it does not return an error
about an unknown manifest or an unknown permission. -/
theorem validateCapabilities_iff_resolve {acl : Manifests} (hwf : WellFounded (Refers acl))
    (hmembers : MembersResolve acl) {capabilities : Capabilities}
    (hpatterns : ∀ c ∈ capabilities.vals, PatternsValid E c) (target : Target) :
    ∃ fuel, ∀ fuel', fuel ≤ fuel' →
      ((∃ r, Resolved.resolve E fuel' acl capabilities target = .ok r) ∨
        ∃ e, Resolved.resolve E fuel' acl capabilities target = .err e) ∧
      (validateCapabilities acl capabilities target = .ok () ↔
        ∀ e, Resolved.resolve E fuel' acl capabilities target = .err e → e.isUnknown = false) := by
  obtain ⟨fuel, hfuel⟩ := hmembers.exists_fuel hwf (capabilityEntries capabilities target)
  refine ⟨fuel, fun fuel' hle => ?_⟩
  have hpar : ∀ c ∈ activeCapabilities capabilities target, Parses E c :=
    fun c hc => (hpatterns c (mem_filter.mp hc).1).parses
  have hrets : (Resolved.resolve E fuel' acl capabilities target).ReturnsOr
      fun e => e.isUnknown = true := by
    refine resolve_returnsOr E hpar fun ce hce => ?_
    exact (hfuel fuel' hle ce hce).imp_right fun ⟨e, herr, hunk, _⟩ => ⟨e, herr, hunk⟩
  refine ⟨hrets.imp_right fun ⟨e, herr, _⟩ => ⟨e, herr⟩, ?_⟩
  rw [validateCapabilities_eq_ok]
  constructor
  · intro hexists e herr
    -- no entry has an error, so the resolver has none
    have hok : (Resolved.resolve E fuel' acl capabilities target).ReturnsOr fun _ => False := by
      refine resolve_returnsOr E hpar fun ce hce => ?_
      refine (hfuel fuel' hle ce hce).imp_right fun ⟨e, _, _, hnot⟩ => ?_
      rw [hexists ce hce] at hnot
      cases hnot
    rcases hok with ⟨r, hr⟩ | ⟨_, _, hfalse⟩
    · rw [hr] at herr
      cases herr
    · exact hfalse.elim
  · intro hno ce hce
    rcases hrets with ⟨r, hr⟩ | ⟨e, herr, hunk⟩
    · obtain ⟨items, ⟨flat, hflat, -⟩, -⟩ := (resolves_iff E).mp ⟨fuel', hr⟩
      refine permissionExists_iff.mpr ?_
      rcases hflat ce hce with ⟨href, -⟩ | ⟨t, href, -⟩ | ⟨node, href, -⟩ <;> exact ⟨_, href⟩
    · rw [hno e herr] at hunk
      cases hunk

end Patterns

namespace Sample

theorem membersResolve_referringAcl : MembersResolve referringAcl := by
  rintro ⟨⟨permissionId, manifest, set⟩, hnode⟩ perm hperm
  rcases declared_referringAcl hnode with ⟨hm, hset⟩ | ⟨hm, hset⟩
  · obtain rfl : manifest = fsManifest := hm
    obtain rfl : set = ⟨"default", ["allow-open"]⟩ := hset
    obtain rfl : perm = "allow-open" := mem_singleton.mp hperm
    exact ⟨_, rfl⟩
  · obtain rfl : manifest = dialogManifest := hm
    obtain rfl : set = ⟨"default", ["fs:default", "allow-open"]⟩ := hset
    simp only [mem_cons, not_mem_nil, or_false] at hperm
    rcases hperm with rfl | rfl <;> exact ⟨_, rfl⟩

def dialogSave : Identifier := ⟨"dialog:allow-save", some 6, by decide⟩

/-- One capability that exists and, for Windows only, one that does not. -/
def dialogCapabilities : Capabilities := ((∅ : Capabilities).insert "main"
  { identifier := "main", windows := ["main"],
    permissions := [.permissionRef dialogDefault] }).insert
  "save" { identifier := "save", permissions := [.permissionRef dialogSave],
           platforms := some [.windows] }

theorem patternsValid_dialogCapabilities :
    ∀ c ∈ dialogCapabilities.vals, PatternsValid literalPatterns c := by
  intro c hc
  exact ⟨fun pattern _ => ⟨pattern, rfl⟩, fun pattern _ => ⟨pattern, rfl⟩, fun url _ => ⟨url, rfl⟩⟩

/-- The build for Linux is accepted and resolves, the one for Windows is rejected by both. -/
theorem validate_dialogCapabilities : ∃ fuel,
    (∀ e, Resolved.resolve literalPatterns fuel referringAcl dialogCapabilities .linux = .err e →
      e.isUnknown = false) ∧
    ∃ e, Resolved.resolve literalPatterns fuel referringAcl dialogCapabilities .windows = .err e ∧
      e.isUnknown = true := by
  obtain ⟨fuel, hlinux⟩ := validateCapabilities_iff_resolve literalPatterns
    wellFounded_referringAcl membersResolve_referringAcl patternsValid_dialogCapabilities .linux
  obtain ⟨fuel', hwindows⟩ := validateCapabilities_iff_resolve literalPatterns
    wellFounded_referringAcl membersResolve_referringAcl patternsValid_dialogCapabilities .windows
  have hrej : validateCapabilities referringAcl dialogCapabilities .windows ≠ .ok () :=
    fun h => by cases h
  refine ⟨max fuel fuel', (hlinux _ (by omega)).2.mp rfl, ?_⟩
  by_contra hnone
  refine hrej ((hwindows (max fuel fuel') (by omega)).2.mpr fun e herr => ?_)
  rw [← Bool.not_eq_true]
  exact fun hunk => hnone ⟨e, herr, hunk⟩

end Sample

end Tauri.Acl
