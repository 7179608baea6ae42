import Tauri.Manager.Csp
import Tauri.Rust.PathBuf
import Tauri.Rust.Percent

/-!
# Assets of the application

`AppManager::get_asset` looks up the asset for a path under four keys, one after the other. Which
key it ended with is kept in a variable that each fallback assigns, and decides afterwards whether
the content is HTML and which hashes go into its policy.

* **The key stays in step with the content** (`lookup_eq`): the variable is the key of the asset
  that is returned.
* **The first character of the path is dropped unseen.** It should be a slash; a path without one,
  which `AssetResolver::get` passes on, is looked up under another name
  (`getAsset_faithful_iff`).
-/

namespace Tauri.Assets

open Rust Rust.PathBuf Tauri.Csp List Option

/-- `CspHash`. -/
inductive CspHash where
  | script (hash : String)
  | style (hash : String)
  deriving DecidableEq, Repr

/-- `Csp`. -/
inductive Csp where
  | policy (text : String)
  | directiveMap (map : Directives)

/-- One directive of a policy, as `From<Csp>` reads it. -/
def insertDirective (map : Directives) (directive : String) : Directives :=
  match split ' ' (trim directive) with
  | [] => map
  | name :: sources => map.insert name (.list sources)

/-- `HashMap::from(csp)`. -/
def Csp.toMap : Csp → Directives
  | policy text => (split ';' text).foldl insertDirective ∅
  | directiveMap map => map

/-- `Csp::DirectiveMap(..).to_string()`, for the entries in the order of the iteration. -/
def displayDirectives (entries : List (String × CspDirectiveSources)) : String :=
  "; ".intercalate (entries.map fun (directive, sources) =>
    directive ++ " " ++ " ".intercalate sources.toVec)

/-- `DisabledCspModificationKind`. -/
inductive DisabledCspModificationKind where
  | flag (disabled : Bool)
  | list (directives : List String)
  deriving DecidableEq, Repr

/-- `DisabledCspModificationKind::can_modify`. -/
def DisabledCspModificationKind.canModify (directive : String) :
    DisabledCspModificationKind → Bool
  | flag disabled => !disabled
  | list directives => !directives.contains directive

/-- `EmbeddedAssets`. Without compression, decompressing is `some`. -/
structure EmbeddedAssets where
  assets : BTreeMap String (List UInt8)
  globalHashes : List CspHash := []
  htmlHashes : BTreeMap String (List CspHash) := ∅
  decompress : List UInt8 → Option (List UInt8) := some

/-- `EmbeddedAssets::get`. -/
def EmbeddedAssets.get (assets : EmbeddedAssets) (key : String) : Option (List UInt8) :=
  assets.assets[key]?.bind assets.decompress

/-- `EmbeddedAssets::csp_hashes`. -/
def EmbeddedAssets.cspHashes (assets : EmbeddedAssets) (htmlPath : String) : List CspHash :=
  assets.globalHashes ++ (assets.htmlHashes[htmlPath]?).getD []

/-- The manager, as far as assets go: its assets, the settings of its configuration and of the
build, and what the parsers of other crates, the random numbers and the iteration of a `HashMap`
are. -/
structure AppManager where
  assets : EmbeddedAssets
  isDev : Bool := false
  csp : Option Csp := none
  devCsp : Option Csp := none
  dangerousDisableAssetCspModification : DisabledCspModificationKind := .flag false
  /-- The schema of `Pattern::Isolation`. -/
  isolation : Option String := none
  windowsOrAndroid : Bool := false
  mimeType : List UInt8 → String → String
  random : Nat → Nat
  entries : Directives → List (String × CspDirectiveSources)

/-- `AppManager::csp`. -/
def AppManager.activeCsp (app : AppManager) : Option Csp :=
  if !app.isDev then app.csp else app.devCsp.or app.csp

/-- `format_real_schema`. -/
def AppManager.formatRealSchema (app : AppManager) (schema : String) (https : Bool) : String :=
  if app.windowsOrAndroid then
    (if https then "https" else "http") ++ "://" ++ schema ++ ".localhost"
  else schema ++ "://localhost"

/-- The hashes for scripts and for styles. -/
def hashStrings (hashes : List CspHash) : List String × List String :=
  hashes.foldl (fun
    | (script, style), .script hash => (script ++ [hash], style)
    | (script, style), .style hash => (script, style ++ [hash])) ([], [])

/-- `replace_csp_nonce`, for a directive that may be modified. -/
def modifyDirective (app : AppManager) (random : Nat → Nat) (asset token : String)
    (csp : Directives) (directive : String) (hashes : List String) :
    Option (String × Directives × List Nat) :=
  if app.dangerousDisableAssetCspModification.canModify directive then
    replaceCspNonce random asset token csp directive hashes
  else some (asset, csp, [])

/-- `set_csp`; the nonces for scripts and for styles are given back too. -/
def setCsp (app : AppManager) (asset assetPath : String) (csp : Csp) :
    Option (String × Directives × List Nat × List Nat) := do
  let (script, style) := hashStrings (app.assets.cspHashes assetPath)
  let (asset, csp, scriptNonces) ←
    modifyDirective app app.random asset scriptNonceToken csp.toMap "script-src" script
  let (asset, csp, styleNonces) ←
    modifyDirective app (fun i => app.random (scriptNonces.length + i)) asset styleNonceToken csp
      "style-src" style
  return (asset, csp, scriptNonces, styleNonces)

/-- The isolation origin is pushed to `default-src`. -/
def pushIsolation (app : AppManager) (https : Bool) (csp : Directives) : Directives :=
  match app.isolation with
  | none => csp
  | some schema =>
    csp.insert "default-src"
      ((csp["default-src"]?.getD default).push (app.formatRealSchema schema https))

/-- The page under a key with the policy that goes with it: the bytes, and the header. -/
def secure (app : AppManager) (key : String) (asset : List UInt8) (https : Bool) :
    Option (List UInt8 × Option String) :=
  if ".html".toList.isSuffixOf key.toList then
    let page := String.ofList (decodeUtf8Lossy asset)
    match app.activeCsp with
    | none => some (bytes page, none)
    | some csp => do
      let (page, map, _) ← setCsp app page key csp
      return (bytes page, some (displayDirectives (app.entries (pushIsolation app https map))))
  else some (asset, none)

/-! ### Looking up -/

/-- `AssetKey::from` on Unix. -/
def unixKey (path : String) : String :=
  if isAbsolute path.toList then path else String.ofList (push "/".toList path.toList)

/-- One `or_else` of the lookup: it assigns the key also if there is nothing under it. -/
def orElse (assets : EmbeddedAssets) (response : Option (List UInt8) × String)
    (fallback : String) : Option (List UInt8) × String :=
  match response with
  | (some asset, assetPath) => (some asset, assetPath)
  | (none, _) => (assets.get fallback, fallback)

/-- The asset for a path, and the key that `asset_path` is left with. -/
def lookup (assets : EmbeddedAssets) (key : String → String) (path : String) :
    Option (List UInt8) × String :=
  let response := (assets.get (key path), key path)
  let response := orElse assets response (key (path ++ ".html"))
  let response := orElse assets response (key (path ++ "/index.html"))
  orElse assets response (key "index.html")

/-- The path without one slash at its end, decoded. -/
def decodedPath (path : String) : String :=
  percentDecodeLossy (bytes (if path.toList.getLast? = some '/' then
    String.ofList path.toList.dropLast else path))

/-- The path that is looked up. -/
def lookupPath (path : String) : String :=
  if decodedPath path = "" then "index.html"
  else String.ofList ((decodedPath path).toList.drop 1)

/-- `Asset`. -/
structure Asset where
  bytes : List UInt8
  mimeType : String
  cspHeader : Option String
  deriving DecidableEq

/-- The errors of `get_asset`. -/
inductive Error where
  | assetNotFound (path : String)
  deriving DecidableEq, Repr

/-- `AppManager::get_asset`, where `key` is `AssetKey::from`. -/
def AppManager.getAsset (app : AppManager) (key : String → String) (path : String)
    (https : Bool) : Option (Except Error Asset) :=
  let path := lookupPath path
  match lookup app.assets key path with
  | (some asset, assetPath) => do
    let (finalData, cspHeader) ← secure app assetPath asset https
    return .ok ⟨finalData, app.mimeType finalData path, cspHeader⟩
  | (none, _) => some (.error (.assetNotFound path))

/-! ### The key and the content -/

/-- The first asset under some keys, with its key. -/
def firstAsset (assets : EmbeddedAssets) (keys : List String) : Option (String × List UInt8) :=
  keys.findSome? fun key => (assets.get key).map fun asset => (key, asset)

/-- The keys for a path, in the order in which they are tried. -/
def candidates (key : String → String) (path : String) : List String :=
  [key path, key (path ++ ".html"), key (path ++ "/index.html"), key "index.html"]

/-- The path of a request without the slash that it begins with. -/
def requestedPath (path : String) : String :=
  if (decodedPath path).toList.head? = some '/' then String.ofList (decodedPath path).toList.tail
  else decodedPath path

/-- What is answered to `path` is the first asset there is for `name`, as it is secured under its
own key; and there is an error if there is none. -/
def FaithfulTo (app : AppManager) (key : String → String) (path name : String) : Prop :=
  ∀ https, match firstAsset app.assets (candidates key name) with
    | none => ∃ e, app.getAsset key path https = some (.error e)
    | some (assetPath, asset) => ∃ answer, app.getAsset key path https = some (.ok answer) ∧
      secure app assetPath asset https = some (answer.bytes, answer.cspHeader)

section Lookup

variable {app : AppManager} {key : String → String} {path name : String}

theorem orElse_firstAsset (assets : EmbeddedAssets) (keys : List String) {assetPath : String}
    (fallback : String) :
    orElse assets (match firstAsset assets keys with
        | some (key, asset) => (some asset, key)
        | none => (none, assetPath)) fallback =
      match firstAsset assets (keys ++ [fallback]) with
      | some (key, asset) => (some asset, key)
      | none => (none, fallback) := by
  rw [firstAsset, firstAsset, findSome?_append]
  cases keys.findSome? fun key => (assets.get key).map fun asset => (key, asset) with
  | some => rfl
  | none =>
    cases hget : assets.get fallback <;> simp [orElse, hget]

/-- **The key stays in step with the content**: what the chain of fallbacks ends with is the first
asset and its key. -/
theorem lookup_eq (assets : EmbeddedAssets) (key : String → String) (path : String) :
    lookup assets key path =
      match firstAsset assets (candidates key path) with
      | some (assetPath, asset) => (some asset, assetPath)
      | none => (none, key "index.html") := by
  have hfirst : (assets.get (key path), key path) = match firstAsset assets [key path] with
      | some (assetPath, asset) => (some asset, assetPath)
      | none => (none, key path) := by
    cases hget : assets.get (key path) <;> simp [firstAsset, hget]
  simp only [lookup]
  rw [hfirst, orElse_firstAsset, orElse_firstAsset, orElse_firstAsset]
  rfl

theorem replaceCspNonce_isSome (random : Nat → Nat) (asset token : String)
    (htoken : token.toList ≠ []) (csp : Directives) (directive : String) (hashes : List String) :
    (replaceCspNonce random asset token csp directive hashes).isSome = true := by
  obtain ⟨pieces, hps⟩ := exists_pieces htoken asset.toList
  rw [replaceCspNonce, replaceWithCallback_eq (drawNonce random) htoken hps []]
  simp only [bind_eq_bind, bind_some]
  split <;> rfl

variable (app : AppManager)

theorem modifyDirective_isSome (random : Nat → Nat) (asset token : String)
    (htoken : token.toList ≠ []) (csp : Directives) (directive : String) (hashes : List String) :
    (modifyDirective app random asset token csp directive hashes).isSome = true := by
  rw [modifyDirective]
  split
  · exact replaceCspNonce_isSome random asset token htoken csp directive hashes
  · rfl

theorem exists_setCsp (page assetPath : String) (csp : Csp) :
    ∃ result, setCsp app page assetPath csp = some result := by
  obtain ⟨r₁, h₁⟩ := isSome_iff_exists.mp (modifyDirective_isSome app app.random page
    scriptNonceToken (by decide) csp.toMap "script-src"
    (hashStrings (app.assets.cspHashes assetPath)).1)
  obtain ⟨r₂, h₂⟩ := isSome_iff_exists.mp (modifyDirective_isSome app
    (fun i => app.random (r₁.2.2.length + i)) r₁.1 styleNonceToken (by decide) r₁.2.1
    "style-src" (hashStrings (app.assets.cspHashes assetPath)).2)
  refine ⟨(r₂.1, r₂.2.1, r₁.2.2, r₂.2.2), ?_⟩
  simp only [setCsp, h₁, h₂, bind_eq_bind, bind_some]
  rfl

theorem exists_secure (assetPath : String) (asset : List UInt8) (https : Bool) :
    ∃ result, secure app assetPath asset https = some result := by
  unfold secure
  split
  · cases app.activeCsp with
    | none => exact ⟨_, rfl⟩
    | some csp =>
      obtain ⟨result, hres⟩ :=
        exists_setCsp app (String.ofList (decodeUtf8Lossy asset)) assetPath csp
      exact ⟨_, by simp only [hres, bind_eq_bind, bind_some]; rfl⟩
  · exact ⟨_, rfl⟩

theorem faithfulTo_lookupPath (key : String → String) (path : String) :
    FaithfulTo app key path (lookupPath path) := by
  intro https
  have hlookup := lookup_eq app.assets key (lookupPath path)
  cases hfirst : firstAsset app.assets (candidates key (lookupPath path)) with
  | none =>
    rw [hfirst] at hlookup
    exact ⟨.assetNotFound (lookupPath path), by simp [AppManager.getAsset, hlookup]⟩
  | some found =>
    obtain ⟨assetPath, asset⟩ := found
    rw [hfirst] at hlookup
    obtain ⟨⟨finalData, cspHeader⟩, hsecure⟩ := exists_secure app assetPath asset https
    exact ⟨⟨finalData, app.mimeType finalData (lookupPath path), cspHeader⟩,
      by simp [AppManager.getAsset, hlookup, hsecure], hsecure⟩

/-! ### The path -/

/-- An application with two assets and no policy. -/
def twoAssets (first second : String) : AppManager where
  assets := { assets := ((∅ : BTreeMap String (List UInt8)).insert second [2]).insert first [1] }
  mimeType _ _ := "text/plain"
  random n := n
  entries _ := []

open List

theorem secure_byte (first second key : String) (https : Bool) {b : UInt8} (hb : b ∈ [1, 2]) :
    secure (twoAssets first second) key [b] https = some ([b], none) := by
  have hpage : bytes (String.ofList (decodeUtf8Lossy [b])) = [b] := by
    rcases mem_cons.mp hb with rfl | hb
    · decide
    · rw [mem_singleton.mp hb]
      decide
  unfold secure
  split
  · simp only [hpage, twoAssets, AppManager.activeCsp]
    rfl
  · rfl

theorem key_eq_of_faithfulTo {first second : String}
    (h : ∀ app, FaithfulTo app key path first) (h' : ∀ app, FaithfulTo app key path second) :
    key first = key second := by
  by_contra hne
  have hget₁ : (twoAssets (key first) (key second)).assets.get (key first) = some [1] := by
    simp [twoAssets, EmbeddedAssets.get]
  have hget₂ : (twoAssets (key first) (key second)).assets.get (key second) = some [2] := by
    simp only [EmbeddedAssets.get, twoAssets, BTreeMap.getElem?_insert_of_ne _ _ (Ne.symm hne)]
    simp
  have hfirst := h (twoAssets (key first) (key second)) false
  have hsnd := h' (twoAssets (key first) (key second)) false
  simp only [firstAsset, candidates, findSome?_cons, hget₁, hget₂, Option.map_some,
    secure_byte _ _ _ _ (show (1 : UInt8) ∈ [1, 2] by decide),
    secure_byte _ _ _ _ (show (2 : UInt8) ∈ [1, 2] by decide)] at hfirst hsnd
  obtain ⟨answer, hans, hone⟩ := hfirst
  obtain ⟨answer', hanswer', htwo⟩ := hsnd
  obtain rfl : answer = answer' := Except.ok.inj (Option.some.inj (hans.symm.trans hanswer'))
  have hbytes : ([1] : List UInt8) = [2] := by
    simp only [some.injEq, Prod.mk.injEq] at hone htwo
    exact hone.1.trans htwo.1.symm
  exact absurd hbytes (by decide)

theorem toList_unixKey (path : String) :
    (unixKey path).toList =
      if path.toList.head? = some '/' then path.toList else '/' :: path.toList := by
  unfold unixKey
  by_cases hroot : path.toList.head? = some '/'
  · have habsolute : isAbsolute path.toList = true := beq_iff_eq.mpr hroot
    rw [if_pos habsolute, if_pos hroot]
  · have hrel : isAbsolute path.toList = false := beq_eq_false_iff_ne.mpr hroot
    rw [if_neg hroot, hrel, if_neg Bool.false_ne_true, push, hrel,
      if_neg Bool.false_ne_true, String.toList_ofList]
    rfl

theorem unixKey_ne (h : (decodedPath path).toList.head? ≠ some '/') :
    unixKey (requestedPath path) ≠ unixKey (lookupPath path) := by
  intro heq
  have hkeys := congrArg String.toList heq
  rw [requestedPath, if_neg h, toList_unixKey, if_neg h, lookupPath] at hkeys
  split at hkeys
  · rename_i hemp
    rw [hemp] at hkeys
    exact absurd hkeys (by decide)
  · rename_i hne
    rw [toList_unixKey, String.toList_ofList] at hkeys
    have hpos : (decodedPath path).toList ≠ [] := fun hnil => hne (String.toList_eq_nil_iff.mp hnil)
    have hlen := congrArg length hkeys
    have hpos' := length_pos_iff.mpr hpos
    rw [length_cons] at hlen
    split at hlen
    · rw [length_drop] at hlen
      omega
    · rw [length_cons, length_drop] at hlen
      omega

theorem lookupPath_eq_requestedPath (h : (decodedPath path).toList.head? = some '/') :
    lookupPath path = requestedPath path := by
  have hne : decodedPath path ≠ "" := by
    intro hemp
    rw [hemp] at h
    exact absurd h (by decide)
  rw [lookupPath, if_neg hne, requestedPath, if_pos h, drop_one]

/-- **Assets are served and secured by one key**, that of the first asset for the requested path,
exactly if the decoded path begins with a slash. If it is empty this is so for `index.html`. -/
theorem getAsset_faithful_iff (path : String) :
    ((∀ app, FaithfulTo app unixKey path (requestedPath path)) ↔
        (decodedPath path).toList.head? = some '/') ∧
      ∀ app key,
        ((decodedPath path).toList.head? = some '/' →
          FaithfulTo app key path (requestedPath path)) ∧
        (decodedPath path = "" → FaithfulTo app key path "index.html") := by
  have hslash : (decodedPath path).toList.head? = some '/' →
      ∀ app key, FaithfulTo app key path (requestedPath path) := by
    intro h app key
    rw [← lookupPath_eq_requestedPath h]
    exact faithfulTo_lookupPath app key path
  refine ⟨⟨?_, fun h app => hslash h app unixKey⟩, fun app key => ⟨fun h => hslash h app key, ?_⟩⟩
  · intro h
    by_contra hne
    exact unixKey_ne hne (key_eq_of_faithfulTo h fun app => faithfulTo_lookupPath app unixKey path)
  · intro hemp
    have hpath : lookupPath path = "index.html" := by rw [lookupPath, if_pos hemp]
    exact hpath ▸ faithfulTo_lookupPath app key path

theorem decodedPath_of_not_mem (hslash : path.toList.getLast? ≠ some '/')
    (hpercent : 37 ∉ bytes path) : decodedPath path = path := by
  rw [decodedPath, if_neg hslash, percentDecodeLossy, percentDecode_of_not_mem hpercent,
    decodeUtf8Lossy_bytes, String.ofList_toList]

/-- The page `about.html` is there, and asked for without a slash `index.html` is served. -/
theorem getAsset_other_page :
    firstAsset (twoAssets "/about.html" "/index.html").assets
        (candidates unixKey (requestedPath "about.html")) = some ("/about.html", [1]) ∧
      (twoAssets "/about.html" "/index.html").getAsset unixKey "about.html" false =
        some (.ok ⟨[2], "text/plain", none⟩) := by
  have hdecoded : decodedPath "about.html" = "about.html" :=
    decodedPath_of_not_mem (by decide) (by decide)
  constructor
  · have hrequested : requestedPath "about.html" = "about.html" := by
      rw [requestedPath, hdecoded]
      decide
    rw [hrequested]
    rfl
  · have hpath : lookupPath "about.html" = "bout.html" := by
      rw [lookupPath, hdecoded]
      decide
    have hlookup : lookup (twoAssets "/about.html" "/index.html").assets unixKey "bout.html" =
        (some [2], "/index.html") := rfl
    rw [AppManager.getAsset, hpath, hlookup]
    simp only [secure_byte _ _ _ _ (show (2 : UInt8) ∈ [1, 2] by decide)]
    rfl

end Lookup

end Tauri.Assets
