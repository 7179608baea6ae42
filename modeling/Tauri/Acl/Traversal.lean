import Tauri.Acl.Resolved

/-!
# What a permission entry reaches

Two descriptions of the traversal of permission sets that mention neither fuel nor the order of
calls. `EntryReaches acl id t` says that following references from the entry `id` leads to the
permission `t`, through any nesting of sets and across manifests. `EntryFlattens acl id ts` says
that `ts` is the **left-to-right flattening** of the references, with one occurrence for each way
of reaching a permission.

A successful traversal computes the flattening (`entryFlattens_of_getPermissions`), which is
unique (`EntryFlattens.unique`) and has exactly the reachable permissions as members
(`EntryFlattens.mem_iff`). More fuel never changes an answer (`getPermissions_mono`).
-/

namespace Tauri.Acl

open Rust List Outcome

section Descriptions

variable (acl : Manifests)

/-- Following references from the members of a set leads to the permission. -/
inductive SetReaches : SetNode → TraversedPermission → Prop
  | permission {node : SetNode} {perm : String} {t : TraversedPermission}
      (hperm : perm ∈ node.set.permissions)
      (href : setMember acl node perm = .ok (.permission t)) : SetReaches node t
  | set {node node' : SetNode} {perm : String} {t : TraversedPermission}
      (hperm : perm ∈ node.set.permissions)
      (href : setMember acl node perm = .ok (.set node'))
      (hreach : SetReaches node' t) : SetReaches node t

/-- Following references from a permission entry leads to the permission: directly, or through
the set or the `default` set that the entry names. -/
def EntryReaches (permissionId : Identifier) (t : TraversedPermission) : Prop :=
  entryReference permissionId acl = .ok (.permission t) ∨
    ∃ node, entryReference permissionId acl = .ok (.set node) ∧ SetReaches acl node t

/-- The left-to-right flattening of some members of the set at `node`. -/
inductive Flattens : SetNode → List String → List TraversedPermission → Prop
  | nil {node : SetNode} : Flattens node [] []
  | nothing {node : SetNode} {perm : String} {perms : List String} {ts : List TraversedPermission}
      (href : setMember acl node perm = .ok .nothing) (hrest : Flattens node perms ts) :
      Flattens node (perm :: perms) ts
  | permission {node : SetNode} {perm : String} {perms : List String} {t : TraversedPermission}
      {ts : List TraversedPermission} (href : setMember acl node perm = .ok (.permission t))
      (hrest : Flattens node perms ts) : Flattens node (perm :: perms) (t :: ts)
  | set {node node' : SetNode} {perm : String} {perms : List String}
      {ts' ts : List TraversedPermission} (href : setMember acl node perm = .ok (.set node'))
      (hset : Flattens node' node'.set.permissions ts') (hrest : Flattens node perms ts) :
      Flattens node (perm :: perms) (ts' ++ ts)

/-- The left-to-right flattening of a permission entry. -/
def EntryFlattens (permissionId : Identifier) (ts : List TraversedPermission) : Prop :=
  (entryReference permissionId acl = .ok .nothing ∧ ts = []) ∨
    (∃ t, entryReference permissionId acl = .ok (.permission t) ∧ ts = [t]) ∨
    ∃ node, entryReference permissionId acl = .ok (.set node) ∧
      Flattens acl node node.set.permissions ts

end Descriptions

variable {acl : Manifests}

/-! ### Uniqueness and members -/

variable {node : SetNode} {perms : List String} {ts : List TraversedPermission} {id : Identifier}
  {t : TraversedPermission} {fuel fuel' : Nat} {tss : List (List TraversedPermission)}

theorem Flattens.unique {us : List TraversedPermission} (hts : Flattens acl node perms ts)
    (hus : Flattens acl node perms us) : ts = us := by
  induction hts generalizing us with
  | nil =>
    cases hus
    rfl
  | nothing href _ ih =>
    -- the reference decides which rule the other derivation ends with
    cases hus with
    | nothing _ hrest => exact ih hrest
    | permission href' _ | set href' _ _ => simp [href] at href'
  | permission href =>
    cases hus with
    | nothing href' _ | set href' _ _ => simp [href] at href'
    | permission => grind
  | set href =>
    cases hus with
    | nothing href' _ | permission href' _ => simp [href] at href'
    | set => grind

theorem EntryFlattens.unique {us : List TraversedPermission} (hts : EntryFlattens acl id ts)
    (hus : EntryFlattens acl id us) : ts = us := by
  rcases hts with ⟨href, rfl⟩ | ⟨t, href, rfl⟩ | ⟨node, href, hset⟩ <;>
    rcases hus with ⟨href', rfl⟩ | ⟨t', href', rfl⟩ | ⟨node', href', hset'⟩ <;>
    simp only [href, ok.injEq, reduceCtorEq, Reference.permission.injEq,
      Reference.set.injEq] at href'
  · rfl
  · rw [href']
  · subst href'
    exact hset.unique hset'

private theorem Flattens.reaches (hts : Flattens acl node perms ts)
    (hsub : ∀ perm ∈ perms, perm ∈ node.set.permissions) (ht : t ∈ ts) : SetReaches acl node t := by
  induction hts with
  | nil => cases ht
  | nothing _ _ ih => exact ih (fun p hp => hsub p (mem_cons_of_mem _ hp)) ht
  | permission href _ ih =>
    rcases mem_cons.mp ht with rfl | ht
    · exact .permission (hsub _ mem_cons_self) href
    · exact ih (fun p hp => hsub p (mem_cons_of_mem _ hp)) ht
  | set href _ _ ihset ih =>
    rcases mem_append.mp ht with ht | ht
    · exact .set (hsub _ mem_cons_self) href (ihset (fun _ hp => hp) ht)
    · exact ih (fun p hp => hsub p (mem_cons_of_mem _ hp)) ht

private theorem Flattens.of_mem (hts : Flattens acl node perms ts) {perm : String}
    (hperm : perm ∈ perms) :
    (∀ t, setMember acl node perm = .ok (.permission t) → t ∈ ts) ∧
      ∀ node', setMember acl node perm = .ok (.set node') →
        ∃ ts', Flattens acl node' node'.set.permissions ts' ∧ ts' ⊆ ts := by
  induction hts with
  | nil => cases hperm
  | nothing href _ ih =>
    rcases mem_cons.mp hperm with rfl | hperm
    · simp [href]
    · exact ih hperm
  | permission | set => grind

private theorem Flattens.mem_of_reaches (hreach : SetReaches acl node t)
    (hts : Flattens acl node node.set.permissions ts) : t ∈ ts := by
  induction hreach generalizing ts with
  | permission hperm href => exact (hts.of_mem hperm).1 _ href
  | set hperm href _ ih =>
    obtain ⟨ts', hts', hsub⟩ := (hts.of_mem hperm).2 _ href
    exact hsub (ih hts')

/-- **The flattening has exactly the reachable permissions as members.** -/
theorem EntryFlattens.mem_iff (hts : EntryFlattens acl id ts) : t ∈ ts ↔ EntryReaches acl id t := by
  rcases hts with ⟨href, rfl⟩ | ⟨t', href, rfl⟩ | ⟨node, href, hset⟩
  · simp [EntryReaches, href]
  · simp only [EntryReaches, href, mem_singleton, ok.injEq, reduceCtorEq,
      Reference.permission.injEq, false_and, exists_false, or_false]
    exact eq_comm
  · simp only [EntryReaches, href, ok.injEq, reduceCtorEq, Reference.set.injEq,
      exists_eq_left', false_or]
    exact ⟨fun ht => hset.reaches (fun _ hp => hp) ht, fun hr => Flattens.mem_of_reaches hr hset⟩

/-! ### The traversal computes the flattening -/

private theorem flattens_of_forall₂
    (ih : ∀ node' ts, getPermissionSetPermissions acl fuel node' = .ok ts →
      Flattens acl node' node'.set.permissions ts) (h : List.Forall₂ (fun perm ts =>
      (setMember acl node perm >>= follow (getPermissionSetPermissions acl fuel)) = .ok ts)
      perms tss) : Flattens acl node perms tss.flatten := by
  induction h with
  | nil => exact .nil
  | cons hhead _ ihrest =>
    obtain ⟨ref, href, hfollow⟩ := bind_eq_ok.mp hhead
    cases ref with
    | nothing =>
      cases hfollow
      exact .nothing href ihrest
    | permission t =>
      cases hfollow
      exact .permission href ihrest
    | set node' => exact .set href (ih node' _ hfollow) ihrest

theorem flattens_of_getPermissionSetPermissions
    (h : getPermissionSetPermissions acl fuel node = .ok ts) :
    Flattens acl node node.set.permissions ts := by
  induction fuel generalizing node ts with
  | zero => cases h
  | succ fuel ih =>
    rw [getPermissionSetPermissions, foldlM_append_eq_ok] at h
    obtain ⟨tss, htss, rfl⟩ := h
    rw [nil_append]
    exact flattens_of_forall₂ (fun _ _ => ih) htss

/-- **A successful traversal returns the flattening.** -/
theorem entryFlattens_of_getPermissions (h : getPermissions fuel id acl = .ok ts) :
    EntryFlattens acl id ts := by
  obtain ⟨ref, href, hfollow⟩ := bind_eq_ok.mp h
  cases ref with
  | nothing =>
    cases hfollow
    exact .inl ⟨href, rfl⟩
  | permission t =>
    cases hfollow
    exact .inr (.inl ⟨t, href, rfl⟩)
  | set node => exact .inr (.inr ⟨node, href, flattens_of_getPermissionSetPermissions hfollow⟩)

/-! ### Fuel -/

private theorem approx_follow {f g : SetNode → Outcome Error (List TraversedPermission)}
    (h : ∀ node, Outcome.Approx (f node) (g node)) (ref : Reference) :
    Outcome.Approx (follow f ref) (follow g ref) := by
  cases ref with
  | nothing | permission t => exact .refl _
  | set node => exact h node

theorem getPermissionSetPermissions_mono (hle : fuel ≤ fuel') (node : SetNode) :
    Outcome.Approx (getPermissionSetPermissions acl fuel node)
      (getPermissionSetPermissions acl fuel' node) := by
  induction fuel generalizing fuel' node with
  | zero => exact .inl rfl
  | succ fuel ih =>
    obtain ⟨fuel', rfl⟩ : ∃ k, fuel' = k + 1 := ⟨fuel' - 1, by omega⟩
    simp only [getPermissionSetPermissions]
    refine Approx.foldlM (fun permissions perm => ?_) []
    refine Approx.bind (Approx.bind (.refl _) fun ref => ?_) fun _ => .refl _
    exact approx_follow (fun node' => ih (by omega) node') ref

theorem getPermissions_mono (hle : fuel ≤ fuel') (id : Identifier) :
    Outcome.Approx (getPermissions fuel id acl) (getPermissions fuel' id acl) :=
  Approx.bind (.refl _)
    fun ref => approx_follow (fun node => getPermissionSetPermissions_mono hle node) ref

/-- The members of a set, traversed one by one with the same fuel. -/
private def MembersTraversed (acl : Manifests) (fuel : Nat) (node : SetNode) (perms : List String)
    (tss : List (List TraversedPermission)) : Prop :=
  List.Forall₂ (fun perm ts =>
    (setMember acl node perm >>= follow (getPermissionSetPermissions acl fuel)) = .ok ts) perms tss

private theorem MembersTraversed.mono (hle : fuel ≤ fuel')
    (h : MembersTraversed acl fuel node perms tss) : MembersTraversed acl fuel' node perms tss := by
  refine Forall₂.imp (fun perm ts hts => ?_) h
  refine Approx.eq_ok (Approx.bind (.refl _) fun ref => ?_) hts
  exact approx_follow (fun node' => getPermissionSetPermissions_mono hle node') ref

private theorem MembersTraversed.traverse
    (h : MembersTraversed acl fuel node node.set.permissions tss) :
    getPermissionSetPermissions acl (fuel + 1) node = .ok tss.flatten := by
  rw [getPermissionSetPermissions, foldlM_append_eq_ok]
  exact ⟨tss, h, (nil_append _).symm⟩

private theorem Flattens.exists_membersTraversed (h : Flattens acl node perms ts) :
    ∃ fuel tss, MembersTraversed acl fuel node perms tss ∧ ts = tss.flatten := by
  induction h with
  | nil => exact ⟨0, [], .nil, rfl⟩
  | nothing href _ ih =>
    obtain ⟨fuel, tss, htss, rfl⟩ := ih
    exact ⟨fuel, [] :: tss, .cons (by rw [href]; rfl) htss, rfl⟩
  | permission href _ ih =>
    obtain ⟨fuel, tss, htss, rfl⟩ := ih
    exact ⟨fuel, [_] :: tss, .cons (by rw [href]; rfl) htss, rfl⟩
  | set href _ _ ihset ih =>
    obtain ⟨fuel, tss, htss, rfl⟩ := ih
    obtain ⟨fuel', tss', htss', rfl⟩ := ihset
    -- one more call than the nested set needs, and enough for the other members
    refine ⟨max (fuel' + 1) fuel, tss'.flatten :: tss,
      .cons ?_ (htss.mono (le_max_right _ _)), rfl⟩
    rw [href, ok_bind, follow]
    exact (getPermissionSetPermissions_mono (le_max_left _ _) _).eq_ok htss'.traverse

/-- **The traversal returns every flattening**, given enough fuel. -/
theorem EntryFlattens.exists_fuel (h : EntryFlattens acl id ts) :
    ∃ fuel, ∀ fuel', fuel ≤ fuel' → getPermissions fuel' id acl = .ok ts := by
  rcases h with ⟨href, rfl⟩ | ⟨t, href, rfl⟩ | ⟨node, href, hset⟩
  · exact ⟨0, fun fuel' _ => by rw [getPermissions, href]; rfl⟩
  · exact ⟨0, fun fuel' _ => by rw [getPermissions, href]; rfl⟩
  · obtain ⟨fuel, tss, htss, rfl⟩ := hset.exists_membersTraversed
    refine ⟨fuel + 1, fun fuel' hle => (getPermissions_mono hle id).eq_ok ?_⟩
    rw [getPermissions, href, ok_bind, follow]
    exact htss.traverse

end Tauri.Acl
