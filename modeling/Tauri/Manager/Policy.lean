import Tauri.Manager.Assets

/-!
# What the injection of sources changes

The policy of a page gets the nonces and the hashes of the page, and under the isolation pattern
the origin of the isolation frame. A directive that is not there is governed by `default-src`, and
where that is not there either nothing is restricted; so a directive that is **created**, and every
change of `default-src`, takes away or adds more than the sources that are written down.

`Gains` compares what is effective for a directive before and after. `onlyAdds_iff` says when every
directive gains just what it should: `script-src` and `style-src` have to be there already, or
`default-src` has nothing that they would lose; and `default-src`, which gets the isolation origin
whether it may be modified or not, has to have it already.
-/

namespace Tauri.Assets

open Rust Tauri.Csp List

/-- The words of some sources, as a browser sees them. -/
def words (sources : List String) : List String := nonEmpty (sources.flatMap (split ' '))

/-- The sources of a directive, as a browser sees them. -/
def tokens (sources : CspDirectiveSources) : List String := words sources.toVec

/-- The sources that are in effect for a directive: its own, or those of `default-src`. With `none`
everything is allowed. -/
def effective (map : Directives) (directive : String) : Option (List String) :=
  (map[directive]?.or map["default-src"]?).map tokens

/-- Some sources with others added. Where everything is allowed, it stays so. -/
def Gains (old new : Option (List String)) (added : List String) : Prop :=
  match old, new with
  | none, none => True
  | some old, some new => ∀ s, s ∈ new ↔ s ∈ old ∨ s ∈ added
  | _, _ => False

/-- The sources for the nonces and the hashes of a page. -/
def addedSources (nonces : List Nat) (hashes : List String) : List String :=
  if nonces = [] ∧ hashes = [] then [] else selfSource :: (nonces.map nonceSource ++ hashes)

/-- The origin of the isolation frame. -/
def AppManager.isolationOrigin (app : AppManager) (https : Bool) : Option String :=
  app.isolation.map fun schema => app.formatRealSchema schema https

/-- A directive may be modified. -/
def AppManager.canModify (app : AppManager) (directive : String) : Bool :=
  app.dangerousDisableAssetCspModification.canModify directive

/-- The sources that a directive should gain. -/
def gain (app : AppManager) (https : Bool) (script style : List String) (directive : String) :
    List String :=
  if !app.canModify directive then []
  else if directive = "script-src" then script
  else if directive = "style-src" then style
  else if directive = "frame-src" then (app.isolationOrigin https).toList
  else []

/-- Every directive gains just what it should, and one that may not be modified stays as it is. -/
def OnlyAdds (app : AppManager) (https : Bool) (old new : Directives) (script style : List String) :
    Prop :=
  (∀ directive, Gains (effective old directive) (effective new directive)
    (words (gain app https script style directive))) ∧
  ∀ directive, app.canModify directive = false → new[directive]? = old[directive]?

/-- A directive that gets nonces or hashes has sources of its own, among which `'self'` is not just
part of a word; or it loses nothing when it gets some. -/
def HasOwnSources (app : AppManager) (map : Directives) (directive : String) (nonces : List Nat)
    (hashes : List String) : Prop :=
  app.canModify directive = true → ¬(nonces = [] ∧ hashes = []) →
    match map[directive]? with
    | some sources => sources.contains selfSource = true →
      selfSource ∈ tokens sources ∨ selfSource ∈ words hashes
    | none => ∃ fallback, map["default-src"]? = some fallback ∧
      ∀ s ∈ tokens fallback, s ∈ words (addedSources nonces hashes)

/-- The origin of the isolation frame is among the sources of `default-src`, which may be modified,
and of `frame-src` if that is there. -/
def AllowsIsolation (app : AppManager) (https : Bool) (map : Directives) : Prop :=
  ∀ origin, app.isolationOrigin https = some origin →
    app.canModify "default-src" = true ∧
    (∃ fallback, map["default-src"]? = some fallback ∧
      ∀ s ∈ words [origin], s ∈ tokens fallback) ∧
    (app.canModify "frame-src" = true → ∀ frame, map["frame-src"]? = some frame →
      ∀ s ∈ words [origin], s ∈ tokens frame)

section Tokens

variable {s : String} {sources : CspDirectiveSources}

theorem words_append (l l' : List String) : words (l ++ l') = words l ++ words l' := by
  rw [words, flatMap_append, nonEmpty, filter_append]
  rfl

theorem words_split (source : String) : words (split ' ' source) = words [source] := by
  have hwords : (split ' ' source).flatMap (split ' ') = split ' ' source := by
    have hsing : ∀ word ∈ split ' ' source, split ' ' word = [word] :=
      fun word hword => split_of_not_mem (not_mem_of_mem_split hword)
    rw [flatMap_congr hsing, flatMap_singleton']
  rw [words, hwords, words, flatMap_singleton]

theorem words_of_not_mem {source : String} (hsp : ' ' ∉ source.toList) (hne : source ≠ "") :
    words [source] = [source] := by
  rw [words, flatMap_singleton, split_of_not_mem hsp]
  simp [nonEmpty, hne]

variable (sources)

theorem tokens_push (source : String) :
    tokens (sources.push source) = tokens sources ++ words [source] := by
  cases sources with
  | inline text =>
    change words (split ' ' (text ++ " " ++ source)) = _
    rw [split_append_space, words_append, words_split source]
    rfl
  | list l => exact words_append l [source]

theorem tokens_extend (added : List String) :
    tokens (sources.extend added) = tokens sources ++ words added := by
  induction added generalizing sources with
  | nil => exact (append_nil _).symm
  | cons source added ih =>
    change tokens ((sources.push source).extend added) = _
    rw [ih, tokens_push, append_assoc, ← words_append, singleton_append]

variable {sources}

theorem tokens_default : tokens (default : CspDirectiveSources) = [] := rfl

theorem words_self : words [selfSource] = [selfSource] := words_of_not_mem (by decide) (by decide)

theorem self_not_mem_nonces (nonces : List Nat) : selfSource ∉ words (nonces.map nonceSource) := by
  intro h
  obtain ⟨source, hsrc, hword⟩ := mem_flatMap.mp (mem_filter.mp h).1
  obtain ⟨n, -, rfl⟩ := mem_map.mp hsrc
  have hsp : ' ' ∉ (nonceSource n).toList := by
    intro hmem
    simp only [nonceSource, String.toList_append, mem_append] at hmem
    rcases hmem with (hmem | hmem) | hmem
    · exact absurd hmem (by decide)
    · have hdigit := toNat_of_mem_toString hmem
      exact absurd hdigit.1 (by decide)
    · exact absurd hmem (by decide)
  rw [split_of_not_mem hsp, mem_singleton] at hword
  have hchars := congrArg (fun s => s.toList.take 2) hword
  simp [selfSource, nonceSource] at hchars

variable {nonces : List Nat} {hashes : List String}

/-- The sources of a directive with nonces and hashes, as `replace_csp_nonce` adds them. -/
def extended (sources : CspDirectiveSources) (nonces : List Nat) (hashes : List String) :
    CspDirectiveSources :=
  ((if sources.contains selfSource then sources else sources.push selfSource).extend
    (nonces.map nonceSource)).extend hashes

theorem mem_tokens_extended :
    s ∈ tokens (extended sources nonces hashes) ↔
      s ∈ tokens sources ∨ (sources.contains selfSource = false ∧ s = selfSource) ∨
        s ∈ words (nonces.map nonceSource) ∨ s ∈ words hashes := by
  rw [extended, tokens_extend, tokens_extend, mem_append, mem_append]
  cases hmem : sources.contains selfSource with
  | true => simp [or_assoc]
  | false => simp [tokens_push, words_self, or_assoc]

section

variable (hne : ¬(nonces = [] ∧ hashes = []))
include hne

theorem mem_words_addedSources :
    s ∈ words (addedSources nonces hashes) ↔
      s = selfSource ∨ s ∈ words (nonces.map nonceSource) ∨ s ∈ words hashes := by
  rw [addedSources, if_neg hne, ← singleton_append, words_append, words_append, words_self,
    mem_append, mem_append, mem_singleton]

/-- A directive gains the nonces and the hashes and `'self'`, unless that is only found in it. -/
theorem gains_extended :
    Gains (some (tokens sources)) (some (tokens (extended sources nonces hashes)))
        (words (addedSources nonces hashes)) ↔
      (sources.contains selfSource = true →
        selfSource ∈ tokens sources ∨ selfSource ∈ words hashes) := by
  simp only [Gains, mem_tokens_extended, mem_words_addedSources hne]
  constructor
  · intro h hcontains
    rcases (h selfSource).mpr (.inr (.inl rfl)) with hmem | ⟨hfalse, -⟩ | hmem | hmem
    · exact .inl hmem
    · rw [hcontains] at hfalse
      cases hfalse
    · exact absurd hmem (self_not_mem_nonces nonces)
    · exact .inr hmem
  · grind

theorem mem_tokens_created :
    s ∈ tokens (extended default nonces hashes) ↔ s ∈ words (addedSources nonces hashes) := by
  have hmem : (default : CspDirectiveSources).contains selfSource = false := rfl
  simp [mem_tokens_extended, mem_words_addedSources hne, tokens_default, hmem]

end

end Tokens

/-! ### The map after the injection -/

section Injection

variable {app : AppManager} {https : Bool} {old new : Directives}

/-- The directive is given nonces or hashes. -/
def Extends (app : AppManager) (directive : String) (nonces : List Nat) (hashes : List String) :
    Prop :=
  app.canModify directive = true ∧ ¬(nonces = [] ∧ hashes = [])

open Option

theorem modifyDirective_spec (app : AppManager) (random : Nat → Nat) (page token : String)
    (htoken : token.toList ≠ []) (csp : Directives) (directive : String) (hashes : List String) :
    ∃ page' csp' nonces, modifyDirective app random page token csp directive hashes =
        some (page', csp', nonces) ∧
      (Extends app directive nonces hashes →
        csp'[directive]? = some (extended (csp[directive]?.getD default) nonces hashes)) ∧
      (¬Extends app directive nonces hashes → csp'[directive]? = csp[directive]?) ∧
      ∀ d, d ≠ directive → csp'[d]? = csp[d]? := by
  by_cases hmod : app.canModify directive = true
  · obtain ⟨pieces, hps⟩ := exists_pieces htoken page.toList
    rw [AppManager.canModify] at hmod
    rw [modifyDirective, if_pos hmod, replaceCspNonce,
      replaceWithCallback_eq (drawNonce random) htoken hps []]
    simp only [bind_eq_bind, bind_some]
    by_cases hemp : (calls (drawNonce random) (pieces.length - 1) []).2 = [] ∧ hashes = []
    · refine ⟨_, _, _, if_pos (by simp [hemp]), ?_, fun _ => rfl, fun _ _ => rfl⟩
      exact fun hext => absurd hemp hext.2
    · refine ⟨_, _, _, if_neg (by simpa using hemp), ?_, ?_, ?_⟩
      · intro _
        rw [Std.ExtTreeMap.getElem?_insert_self]
        rfl
      · exact fun hnot => absurd ⟨hmod, hemp⟩ hnot
      · exact fun d hd => BTreeMap.getElem?_insert_of_ne _ _ hd
  · have hnone : modifyDirective app random page token csp directive hashes =
        some (page, csp, []) := if_neg hmod
    exact ⟨page, csp, [], hnone, fun hext => absurd hext.1 hmod, fun _ => rfl,
      fun _ _ => rfl⟩

/-- What the injection does to the entries of a policy. -/
structure Injected (app : AppManager) (https : Bool) (old new : Directives)
    (script style : List Nat) (scriptHashes styleHashes : List String) : Prop where
  script_extends : Extends app "script-src" script scriptHashes →
    new["script-src"]? = some (extended (old["script-src"]?.getD default) script scriptHashes)
  script_keeps : ¬Extends app "script-src" script scriptHashes →
    new["script-src"]? = old["script-src"]?
  style_extends : Extends app "style-src" style styleHashes →
    new["style-src"]? = some (extended (old["style-src"]?.getD default) style styleHashes)
  style_keeps : ¬Extends app "style-src" style styleHashes →
    new["style-src"]? = old["style-src"]?
  isolation : ∀ origin, app.isolationOrigin https = some origin →
    new["default-src"]? = some ((old["default-src"]?.getD default).push origin)
  no_isolation : app.isolationOrigin https = none → new["default-src"]? = old["default-src"]?
  other : ∀ d, d ≠ "script-src" → d ≠ "style-src" → d ≠ "default-src" → new[d]? = old[d]?

variable {d : String}

theorem pushIsolation_other (csp : Directives) (hd : d ≠ "default-src") :
    (pushIsolation app https csp)[d]? = csp[d]? := by
  unfold pushIsolation
  cases app.isolation with
  | none => rfl
  | some => exact BTreeMap.getElem?_insert_of_ne _ _ hd

theorem setCsp_injected (app : AppManager) (page assetPath : String) (csp : Csp) (https : Bool) :
    ∃ page' map script style, setCsp app page assetPath csp = some (page', map, script, style) ∧
      Injected app https csp.toMap (pushIsolation app https map) script style
        (hashStrings (app.assets.cspHashes assetPath)).1
        (hashStrings (app.assets.cspHashes assetPath)).2 := by
  obtain ⟨page₁, csp₁, script, h₁, hextends₁, hkeeps₁, hother₁⟩ :=
    modifyDirective_spec app app.random page scriptNonceToken (by decide) csp.toMap "script-src"
      (hashStrings (app.assets.cspHashes assetPath)).1
  obtain ⟨page₂, csp₂, style, h₂, hextends₂, hkeeps₂, hother₂⟩ :=
    modifyDirective_spec app (fun i => app.random (script.length + i)) page₁ styleNonceToken
      (by decide) csp₁ "style-src" (hashStrings (app.assets.cspHashes assetPath)).2
  have hscr : (pushIsolation app https csp₂)["script-src"]? = csp₁["script-src"]? :=
    (pushIsolation_other csp₂ (by decide)).trans (hother₂ _ (by decide))
  have hstyle : (pushIsolation app https csp₂)["style-src"]? = csp₂["style-src"]? :=
    pushIsolation_other csp₂ (by decide)
  have hbef : csp₁["style-src"]? = csp.toMap["style-src"]? := hother₁ _ (by decide)
  have hdef : csp₂["default-src"]? = csp.toMap["default-src"]? :=
    (hother₂ _ (by decide)).trans (hother₁ _ (by decide))
  refine ⟨page₂, csp₂, script, style, ?_, ?_⟩
  · simp only [setCsp, h₁, h₂, bind_eq_bind, bind_some]
    rfl
  · refine ⟨fun h => ?_, fun h => ?_, fun h => ?_, fun h => ?_, ?_, ?_, ?_⟩
    · rw [hscr, hextends₁ h]
    · rw [hscr, hkeeps₁ h]
    · rw [hstyle, hextends₂ h, hbef]
    · rw [hstyle, hkeeps₂ h, hbef]
    · intro origin horig
      obtain ⟨schema, hschema, rfl⟩ := map_eq_some_iff.mp horig
      rw [pushIsolation, hschema]
      simp only [Std.ExtTreeMap.getElem?_insert_self, hdef]
    · intro hnone
      rw [pushIsolation, map_eq_none_iff.mp hnone]
      exact hdef
    · intro d hscr hstyle hdef
      rw [pushIsolation_other csp₂ hdef, hother₂ d hstyle, hother₁ d hscr]

/-! ### What is gained -/

theorem words_nil : words [] = [] := rfl

theorem gain_eq (app : AppManager) (https : Bool) (script style : List String) (d : String) :
    gain app https script style d = if app.canModify d then
      if d = "script-src" then script
      else if d = "style-src" then style
      else if d = "frame-src" then (app.isolationOrigin https).toList else []
      else [] := by
  rw [gain]
  cases app.canModify d <;> rfl

theorem words_gain_eq_nil {app : AppManager} {https : Bool} {script style : List String}
    (hscr : d ≠ "script-src") (hstyle : d ≠ "style-src") (hframe : d ≠ "frame-src") :
    words (gain app https script style d) = [] := by
  rw [gain_eq, if_neg hscr, if_neg hstyle, if_neg hframe, ite_self, words_nil]

@[simp] theorem gains_nil_self (sources : Option (List String)) : Gains sources sources [] := by
  cases sources with
  | none => trivial
  | some l => simp [Gains]

theorem gains_of_entry_eq (hent : new[d]? = old[d]?)
    (hdef : Gains (old["default-src"]?.map tokens) (new["default-src"]?.map tokens) []) :
    Gains (effective old d) (effective new d) [] := by
  rw [effective, effective, hent]
  cases old[d]? with
  | some => exact gains_nil_self _
  | none => exact hdef

theorem effective_default (map : Directives) :
    effective map "default-src" = map["default-src"]?.map tokens := by
  rw [effective, Option.or_self]

theorem gains_own_iff {nonces : List Nat} {hashes : List String}
    (hext : Extends app d nonces hashes →
      new[d]? = some (extended (old[d]?.getD default) nonces hashes))
    (hkeeps : ¬Extends app d nonces hashes → new[d]? = old[d]?)
    (hdef : Gains (old["default-src"]?.map tokens) (new["default-src"]?.map tokens) []) :
    Gains (effective old d) (effective new d)
        (words (if app.canModify d then addedSources nonces hashes else [])) ↔
      HasOwnSources app old d nonces hashes := by
  by_cases h : Extends app d nonces hashes
  · have hnew : effective new d =
        some (tokens (extended (old[d]?.getD default) nonces hashes)) := by
      rw [effective, hext h]
      rfl
    rw [hnew, if_pos h.1]
    simp only [HasOwnSources, h.1, h.2, not_false_eq_true, true_imp_iff]
    cases hold : old[d]? with
    | some =>
      rw [effective, hold]
      exact gains_extended h.2
    | none =>
      rw [effective, hold, none_or, getD_none]
      cases old["default-src"]? with
      | none => simp [Gains]
      | some =>
        simp only [map_some, Gains, mem_tokens_created h.2, some.injEq, exists_eq_left']
        exact ⟨fun hiff s hs => (hiff s).mpr (.inl hs),
          fun hsub s => ⟨.inr, fun hs => hs.elim (hsub s) id⟩⟩
  · have hwords : words (if app.canModify d then addedSources nonces hashes else []) = [] := by
      by_cases hmod : app.canModify d = true
      · have hemp : nonces = [] ∧ hashes = [] := not_not.mp fun hne => h ⟨hmod, hne⟩
        rw [if_pos hmod, addedSources, if_pos hemp, words_nil]
      · rw [if_neg hmod, words_nil]
    rw [hwords]
    exact iff_of_true (gains_of_entry_eq (hkeeps h) hdef)
      fun hmod hne => absurd ⟨hmod, hne⟩ h

theorem push_ne (sources : CspDirectiveSources) (source : String) :
    sources.push source ≠ sources := by
  intro h
  cases sources with
  | inline =>
    have hlen := congrArg String.length (CspDirectiveSources.inline.inj h)
    have hsp : " ".length = 1 := rfl
    simp only [String.length_append] at hlen
    omega
  | list l =>
    have hlen := congrArg length (CspDirectiveSources.list.inj h)
    simp at hlen

namespace Injected

variable {script style : List Nat} {scriptHashes styleHashes : List String}

variable (h : Injected app https old new script style scriptHashes styleHashes)
include h

/-- `default-src` stays effectively the same if there is no isolation origin, or if it has it. -/
theorem default_iff :
    Gains (old["default-src"]?.map tokens) (new["default-src"]?.map tokens) [] ↔
      ∀ origin, app.isolationOrigin https = some origin →
        ∃ fallback, old["default-src"]? = some fallback ∧
          ∀ s ∈ words [origin], s ∈ tokens fallback := by
  cases horig : app.isolationOrigin https with
  | none =>
    rw [h.no_isolation horig]
    simp
  | some origin =>
    rw [h.isolation origin horig]
    cases old["default-src"]? with
    | none => simp [Gains]
    | some =>
      simp only [map_some, getD_some, Gains, tokens_push, mem_append,
        not_mem_nil, or_false, some.injEq, forall_eq', exists_eq_left']
      exact ⟨fun hiff s hs => (hiff s).mp (.inr hs),
        fun hsub s => ⟨fun hs => hs.elim id (hsub s), .inl⟩⟩

/-- The directives that may not be modified stay as they are if `default-src` may be, or if there is
no isolation origin. -/
theorem untouched_iff :
    (∀ d, app.canModify d = false → new[d]? = old[d]?) ↔
      ∀ origin, app.isolationOrigin https = some origin → app.canModify "default-src" = true := by
  constructor
  · intro huntouched origin horig
    by_contra hmod
    have hsame := huntouched "default-src" (Bool.eq_false_of_not_eq_true hmod)
    rw [h.isolation origin horig] at hsame
    cases hold : old["default-src"]? with
    | none =>
      rw [hold] at hsame
      cases hsame
    | some fallback =>
      rw [hold, getD_some, some.injEq] at hsame
      exact push_ne fallback origin hsame
  · intro hdef d hmod
    have hnot : ∀ nonces hashes, ¬Extends app d nonces hashes := by
      intro nonces hashes hext
      rw [hext.1] at hmod
      cases hmod
    by_cases hscr : d = "script-src"
    · subst hscr
      exact h.script_keeps (hnot _ _)
    by_cases hstyle : d = "style-src"
    · subst hstyle
      exact h.style_keeps (hnot _ _)
    by_cases hd : d = "default-src"
    · subst hd
      cases horig : app.isolationOrigin https with
      | none => exact h.no_isolation horig
      | some origin =>
        rw [hdef origin horig] at hmod
        cases hmod
    · exact h.other d hscr hstyle hd

/-- `frame-src` gains the isolation origin if it has it, or if it is governed by `default-src`. -/
theorem frame_iff (hdef : ∀ origin, app.isolationOrigin https = some origin →
      ∃ fallback, old["default-src"]? = some fallback ∧
        ∀ s ∈ words [origin], s ∈ tokens fallback) :
    Gains (effective old "frame-src") (effective new "frame-src")
        (words (if app.canModify "frame-src" then (app.isolationOrigin https).toList else [])) ↔
      ∀ origin, app.isolationOrigin https = some origin → app.canModify "frame-src" = true →
        ∀ frame, old["frame-src"]? = some frame → ∀ s ∈ words [origin], s ∈ tokens frame := by
  have hent : new["frame-src"]? = old["frame-src"]? := h.other _ (by decide) (by decide) (by decide)
  have hsame := gains_of_entry_eq hent (h.default_iff.mpr hdef)
  by_cases hmod : app.canModify "frame-src" = true
  · cases horig : app.isolationOrigin https with
    | none =>
      rw [if_pos hmod, toList_none, words_nil]
      exact iff_of_true hsame (by simp)
    | some origin =>
      obtain ⟨fallback, hfall, hsub⟩ := hdef origin horig
      rw [if_pos hmod, toList_some]
      simp only [some.injEq, forall_eq', hmod, true_imp_iff]
      rw [effective, effective, hent] at hsame ⊢
      cases hframe : old["frame-src"]? with
      | some =>
        simp only [some_or, map_some, Gains, some.injEq, forall_eq']
        exact ⟨fun hiff s hs => (hiff s).mpr (.inr hs),
          fun hall s => ⟨.inl, fun hs => hs.elim id (hall s)⟩⟩
      | none =>
        -- The origin is among the sources of `default-src` before and after.
        rw [hframe, hfall, h.isolation origin horig] at hsame
        rw [hfall, h.isolation origin horig]
        refine iff_of_true ?_ (by simp)
        simp only [none_or, map_some, Gains, not_mem_nil, or_false] at hsame ⊢
        exact fun s => (hsame s).trans ⟨.inl, fun hs => hs.elim id (hsub s)⟩
  · rw [if_neg hmod, words_nil]
    exact iff_of_true hsame fun _ _ hmodify' => absurd hmodify' hmod

theorem onlyAdds_iff :
    OnlyAdds app https old new (addedSources script scriptHashes)
        (addedSources style styleHashes) ↔
      HasOwnSources app old "script-src" script scriptHashes ∧
        HasOwnSources app old "style-src" style styleHashes ∧ AllowsIsolation app https old := by
  constructor
  · rintro ⟨hgains, huntouched⟩
    have hdefault := hgains "default-src"
    rw [words_gain_eq_nil (by decide) (by decide) (by decide), effective_default,
      effective_default] at hdefault
    have hfall := h.default_iff.mp hdefault
    have hscr := hgains "script-src"
    have hstyle := hgains "style-src"
    have hframe := hgains "frame-src"
    rw [gain_eq] at hscr hstyle hframe
    refine ⟨(gains_own_iff h.script_extends h.script_keeps hdefault).mp hscr,
      (gains_own_iff h.style_extends h.style_keeps hdefault).mp hstyle, fun origin horig => ?_⟩
    exact ⟨h.untouched_iff.mp huntouched origin horig, hfall origin horig,
      (h.frame_iff hfall).mp hframe origin horig⟩
  · rintro ⟨hscr, hstyle, hiso⟩
    have hfall := fun origin horig => (hiso origin horig).2.1
    have hdefault := h.default_iff.mpr hfall
    refine ⟨fun d => ?_, h.untouched_iff.mpr fun origin horig => (hiso origin horig).1⟩
    by_cases hd : d = "script-src"
    · subst hd
      rw [gain_eq]
      exact (gains_own_iff h.script_extends h.script_keeps hdefault).mpr hscr
    by_cases hd' : d = "style-src"
    · subst hd'
      rw [gain_eq]
      exact (gains_own_iff h.style_extends h.style_keeps hdefault).mpr hstyle
    by_cases hframe : d = "frame-src"
    · subst hframe
      rw [gain_eq]
      exact (h.frame_iff hfall).mpr fun origin horig => (hiso origin horig).2.2
    rw [words_gain_eq_nil hd hd' hframe]
    by_cases hdef : d = "default-src"
    · subst hdef
      rw [effective_default, effective_default]
      exact hdefault
    · exact gains_of_entry_eq (h.other d hd hd' hdef) hdefault

end Injected

/-- **The injection only adds what it must** exactly if the directives that get nonces or hashes
have sources of their own, or would lose none, and if `default-src`, which may be modified, and
`frame-src` have the isolation origin already. -/
theorem secure_onlyAdds_iff (app : AppManager) (assetPath : String) (asset : List UInt8)
    (https : Bool) (csp : Csp) (hhtml : ".html".toList.isSuffixOf assetPath.toList = true)
    (hcsp : app.activeCsp = some csp) :
    ∃ page map script style,
      setCsp app (String.ofList (decodeUtf8Lossy asset)) assetPath csp =
        some (page, map, script, style) ∧
      secure app assetPath asset https =
        some (bytes page, some (displayDirectives (app.entries (pushIsolation app https map)))) ∧
      (OnlyAdds app https csp.toMap (pushIsolation app https map)
          (addedSources script (hashStrings (app.assets.cspHashes assetPath)).1)
          (addedSources style (hashStrings (app.assets.cspHashes assetPath)).2) ↔
        HasOwnSources app csp.toMap "script-src" script
            (hashStrings (app.assets.cspHashes assetPath)).1 ∧
          HasOwnSources app csp.toMap "style-src" style
            (hashStrings (app.assets.cspHashes assetPath)).2 ∧
          AllowsIsolation app https csp.toMap) := by
  obtain ⟨page, map, script, style, hset, hinjected⟩ :=
    setCsp_injected app (String.ofList (decodeUtf8Lossy asset)) assetPath csp https
  refine ⟨page, map, script, style, hset, ?_, hinjected.onlyAdds_iff⟩
  rw [secure, if_pos hhtml, hcsp]
  simp only [hset, bind_eq_bind, bind_some]
  rfl

end Injection

namespace Sample

/-- A policy that restricts scripts and styles by themselves. -/
def ownSources : Directives :=
  (((∅ : Directives).insert "default-src" (.list ["'self'"])).insert "script-src"
    (.list ["'self'", "https:"])).insert "style-src" (.list ["'self'"])

/-- A policy with `default-src` only. -/
def defaultOnly : Directives := (∅ : Directives).insert "default-src" (.list ["https:"])

/-- An application whose pages have the hash of a script. -/
def app (map : Directives) : AppManager where
  assets := { assets := ∅, globalHashes := [.script "'sha256-x'"] }
  csp := some (.directiveMap map)
  mimeType _ _ := "text/html"
  random n := n
  entries _ := []

/-- Under the isolation pattern, where no directive may be modified. -/
def isolated : AppManager :=
  { app ∅ with
    dangerousDisableAssetCspModification := .flag true
    isolation := some "isolation" }

end Sample

/-- Scripts and styles are restricted by themselves. -/
theorem sample_onlyAdds :
    ∃ page map script style,
      setCsp (Sample.app Sample.ownSources) (String.ofList (decodeUtf8Lossy [])) "/index.html"
          (.directiveMap Sample.ownSources) = some (page, map, script, style) ∧
        OnlyAdds (Sample.app Sample.ownSources) false Sample.ownSources
          (pushIsolation (Sample.app Sample.ownSources) false map)
          (addedSources script ["'sha256-x'"]) (addedSources style []) := by
  obtain ⟨page, map, script, style, hset, -, hiff⟩ :=
    secure_onlyAdds_iff (Sample.app Sample.ownSources) "/index.html" [] false
      (.directiveMap Sample.ownSources) rfl rfl
  refine ⟨page, map, script, style, hset, hiff.mpr ⟨?_, ?_, ?_⟩⟩
  · intro _ _
    have hent : Sample.ownSources["script-src"]? = some (.list ["'self'", "https:"]) := rfl
    simp only [Csp.toMap, hent]
    exact fun _ => .inl (by decide)
  · intro _ _
    have hent : Sample.ownSources["style-src"]? = some (.list ["'self'"]) := rfl
    simp only [Csp.toMap, hent]
    exact fun _ => .inl (by decide)
  · intro origin horig
    cases horig

/-- Scripts from `https:` are not allowed any more once `script-src` is created; and with all
modifications disabled the isolation pattern restricts a policy that restricted nothing. -/
theorem policy_changes_more :
    (∃ map, setCsp (Sample.app Sample.defaultOnly) "" "/index.html"
        (.directiveMap Sample.defaultOnly) = some ("", map, [], []) ∧
      effective Sample.defaultOnly "script-src" = some ["https:"] ∧
      effective (pushIsolation (Sample.app Sample.defaultOnly) false map) "script-src" =
        some ["'self'", "'sha256-x'"]) ∧
    ∃ map, setCsp Sample.isolated "" "/index.html" (.directiveMap ∅) = some ("", map, [], []) ∧
      Sample.isolated.canModify "default-src" = false ∧
      effective (∅ : Directives) "img-src" = none ∧
      effective (pushIsolation Sample.isolated false map) "img-src" =
        some ["isolation://localhost"] :=
  ⟨⟨_, rfl, rfl, rfl⟩, _, rfl, rfl, rfl, rfl⟩

end Tauri.Assets
