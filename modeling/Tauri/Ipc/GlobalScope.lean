import Tauri.Ipc.CommandScope

/-!
# Global scopes

The global scope of a plugin is deserialised on the first typed lookup and cached. The cache is
keyed by the type alone, whereas command scopes have one cache for each id: once a lookup has
succeeded, **every later lookup of the same type returns its answer**, whichever plugin it asks
for. `globalScopeAnswers_iff` says for which sequences of lookups this makes no difference.
-/

namespace Tauri.Ipc

open Rust Acl List

variable {S : ScopeTypes}

namespace ScopeManager

/-- The answers of a sequence of typed global-scope lookups with the given plugin keys. -/
def globalScopeAnswers (t : S.Id) : ScopeManager S → List String →
    List (Outcome ScopeError (ScopeValue (S.Obj t)))
  | _, [] => []
  | sm, key :: keys =>
    (sm.getGlobalScopeTyped t key).1 :: globalScopeAnswers t (sm.getGlobalScopeTyped t key).2 keys

/-- The global scope of a plugin, deserialised; a plugin without one has the empty scope. -/
def globalScopeOf (sm : ScopeManager S) (t : S.Id) (key : String) :
    Outcome ScopeError (ScopeValue (S.Obj t)) :=
  deserialized t (sm.globalScope[key]?.getD {})

/-! ### One lookup -/

variable {sm : ScopeManager S} {t : S.Id}

/-- A lookup with an empty cache answers with the scope of its plugin; a value is cached. -/
theorem getGlobalScopeTyped_of_not_cached (h : sm.globalScopeCache.tryGet t = none) (key : String) :
    (sm.getGlobalScopeTyped t key).1 = sm.globalScopeOf t key ∧
    ((∃ e, sm.globalScopeOf t key = .err e ∧ (sm.getGlobalScopeTyped t key).2 = sm) ∨
      ∃ value, sm.globalScopeOf t key = .ok value ∧
        (sm.getGlobalScopeTyped t key).2.globalScopeCache.tryGet t = some value ∧
        (sm.getGlobalScopeTyped t key).2.globalScope = sm.globalScope) := by
  simp only [getGlobalScopeTyped, h, globalScopeOf, deserialized]
  cases sm.globalScope[key]? with
  | none =>
    refine ⟨rfl, .inr ⟨⟨[], []⟩, rfl, ?_, rfl⟩⟩
    rw [StateManager.tryGet_set h, Function.update_self]
  | some scope =>
    simp only [Option.getD_some]
    cases deserializeScope S t scope with
    | error e => exact ⟨rfl, .inl ⟨_, rfl, rfl⟩⟩
    | ok value =>
      refine ⟨rfl, .inr ⟨value, rfl, ?_, rfl⟩⟩
      rw [StateManager.tryGet_set h, Function.update_self]

/-! ### Sequences of lookups -/

theorem globalScopeAnswers_of_cached {value : ScopeValue (S.Obj t)}
    (h : sm.globalScopeCache.tryGet t = some value) (keys : List String) :
    globalScopeAnswers t sm keys = keys.map fun _ => .ok value := by
  induction keys with
  | nil => rfl
  | cons _ _ ih => simp only [globalScopeAnswers, getGlobalScopeTyped, h, ih, map_cons]

/-- **When global scopes do not leak.** Starting without a cached value of the type, every lookup
of a sequence is answered with the scope of its own plugin exactly when a scope that
deserialises, queried earlier, is also the scope of each plugin queried later. -/
theorem globalScopeAnswers_iff {sm : ScopeManager S} {t : S.Id}
    (h : sm.globalScopeCache.tryGet t = none) (keys : List String) :
    globalScopeAnswers t sm keys = keys.map (sm.globalScopeOf t) ↔
      keys.Pairwise fun earlier later => ∀ value, sm.globalScopeOf t earlier = .ok value →
        sm.globalScopeOf t later = .ok value := by
  induction keys with
  | nil => simp [globalScopeAnswers]
  | cons key keys ih =>
    rw [globalScopeAnswers, map_cons, cons_eq_cons, pairwise_cons]
    obtain ⟨hans, ⟨e, herr, haft⟩ | ⟨value, hok, hcached, -⟩⟩ :=
      getGlobalScopeTyped_of_not_cached h key
    · -- a failed lookup leaves no trace
      simp only [hans, haft, ih, herr, reduceCtorEq, false_imp_iff, implies_true, true_and]
    · have hlater : globalScopeAnswers t (sm.getGlobalScopeTyped t key).2 keys =
          keys.map (sm.globalScopeOf t) ↔ ∀ later ∈ keys, sm.globalScopeOf t later = .ok value := by
        rw [globalScopeAnswers_of_cached hcached, map_inj_left]
        exact forall₂_congr fun _ _ => eq_comm
      rw [hlater, and_iff_right hans]
      simp only [hok, Outcome.ok.injEq, forall_eq']
      refine ⟨fun hall => ⟨hall, ?_⟩, And.left⟩
      refine pairwise_of_forall_mem_list fun k hk k' hk' v hv => ?_
      rw [← hv, hall k hk, hall k' hk']

/-- The scope manager of an application with two plugins that have a global scope. -/
def sampleGlobalScopes : ScopeManager Sample.scopeTypes where
  commandScope := ∅
  globalScope := (∅ : BTreeMap String ResolvedScope).insertMany
    [("fs", { allow := [.string "/home"] }), ("http", { allow := [.string "localhost"] })]
  commandCache := ∅
  globalScopeCache := .new

/-- Two lookups for the same plugin are both answered with its scope. -/
theorem sample_same_plugin_answers :
    globalScopeAnswers () sampleGlobalScopes ["fs", "fs"] =
      ["fs", "fs"].map (sampleGlobalScopes.globalScopeOf ()) := by
  have hpairwise : ["fs", "fs"].Pairwise fun earlier later => ∀ value,
      sampleGlobalScopes.globalScopeOf () earlier = .ok value →
        sampleGlobalScopes.globalScopeOf () later = .ok value := by
    simp
  exact (globalScopeAnswers_iff rfl ["fs", "fs"]).mpr hpairwise

/-- The second plugin is answered with the scope of the first. -/
theorem sample_global_scope_leaks :
    globalScopeAnswers () sampleGlobalScopes ["fs", "http"] ≠
        ["fs", "http"].map (sampleGlobalScopes.globalScopeOf ()) ∧
      globalScopeAnswers () sampleGlobalScopes ["fs", "http"] =
        [.ok ⟨["/home"], []⟩, .ok ⟨["/home"], []⟩] := by
  have hans : globalScopeAnswers () sampleGlobalScopes ["fs", "http"] =
      [.ok ⟨["/home"], []⟩, .ok ⟨["/home"], []⟩] := rfl
  have hscopes : ["fs", "http"].map (sampleGlobalScopes.globalScopeOf ()) =
      [.ok ⟨["/home"], []⟩, .ok ⟨["localhost"], []⟩] := rfl
  refine ⟨?_, hans⟩
  rw [hans, hscopes]
  intro heq
  have hsnd := (cons.inj (cons.inj heq).2).1
  have hallow : (["/home"] : List String) = ["localhost"] :=
    congrArg ScopeValue.allow (Outcome.ok.inj hsnd)
  exact absurd hallow (by decide)

end ScopeManager

end Tauri.Ipc
