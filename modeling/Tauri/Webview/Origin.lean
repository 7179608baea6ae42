import Tauri.Ipc.Authority

/-!
# Local and remote pages

A request has the local origin when `isLocalUrl` accepts the URL of its page. Three tests decide:
the URL of the app's own protocol, the configured `devUrl` or `frontendDist` URL, and the custom
protocols. On Windows and Android the webview serves the custom protocol `p` at the host
`p.localhost`, but the test compares the **first label of the host only**, so it accepts every
host that starts with the name of a registered protocol.

`BelongsToApp` is what the tests are for, and `isLocalUrl_sound_iff` says for which URLs they
accept nothing else.
-/

namespace Tauri.Webview

open Rust Acl Ipc

/-- The part of the application manager that classifies URLs. `basePath` is the configured
`devUrl` (in development) or `frontendDist` URL. -/
structure AppManager where
  target : Target
  basePath : Option Url
  uriSchemeProtocols : Finset String

namespace AppManager

/-- `cfg!(windows) || cfg!(target_os = "android")`. -/
def servesOverHttp (m : AppManager) : Bool := m.target == .windows || m.target == .android

/-- `AppManager::protocol_url`. -/
def protocolUrl (m : AppManager) (https : Bool) : Url :=
  if m.servesOverHttp then
    { scheme := if https then "https" else "http", host := some (.domain "tauri.localhost") }
  else { scheme := "tauri", host := some (.domain "localhost"), path := "" }

/-- `AppManager::get_url`. -/
def getUrl (m : AppManager) (https : Bool) : Url :=
  match m.basePath with
  | some url => url
  | none => m.protocolUrl https

/-- The first label of the host: what stands before the first dot, and the empty string where
there is no dot. -/
def maybeProtocol (url : Url) : String := ((url.domain.bind (splitOnce '.')).getD ("", "")).1

/-- `Webview::is_local_url`. -/
def isLocalUrl (U : UrlCrate) (m : AppManager) (currentUrl : Url) : Bool :=
  let usesHttps := currentUrl.scheme == "https"
  let protocolUrl := m.protocolUrl usesHttps
  (currentUrl.scheme == protocolUrl.scheme && currentUrl.domain == protocolUrl.domain) ||
  (U.makeRelative (m.getUrl usesHttps) currentUrl).isSome ||
  if m.servesOverHttp then
    decide (maybeProtocol currentUrl ∈ m.uriSchemeProtocols) &&
      currentUrl.scheme == protocolUrl.scheme
  else decide (currentUrl.scheme ∈ m.uriSchemeProtocols)

/-- The origin `Webview::on_message` gives a request from the page. -/
def aclOrigin (U : UrlCrate) (m : AppManager) (url : Url) : Origin :=
  if m.isLocalUrl U url then .local_ else .remote url

/-- The URL belongs to the app: it has the scheme and the host of the app's own protocol URL, or
the origin of the configured URL, or the webview serves it from a registered protocol. -/
def BelongsToApp (m : AppManager) (url : Url) : Prop :=
  (∃ https, url.scheme = (m.protocolUrl https).scheme ∧ url.host = (m.protocolUrl https).host) ∨
  (∃ base, m.basePath = some base ∧ base.SameOrigin url) ∨
  ∃ p ∈ m.uriSchemeProtocols,
    if m.servesOverHttp then
      (url.scheme = "http" ∨ url.scheme = "https") ∧ url.host = some (.domain (p ++ ".localhost"))
    else url.scheme = p

/-! ### The three tests -/

variable {m : AppManager} {U : UrlCrate} {url : Url}

theorem protocolUrl_scheme_eq_iff (hhttp : m.servesOverHttp = true) (url : Url) :
    url.scheme = (m.protocolUrl (url.scheme == "https")).scheme ↔
      url.scheme = "http" ∨ url.scheme = "https" := by
  simp only [protocolUrl, hhttp, if_true]
  by_cases hs : url.scheme = "https" <;> simp [hs]

theorem domain_protocolUrl (m : AppManager) (https : Bool) (url : Url) :
    url.domain = (m.protocolUrl https).domain ↔ url.host = (m.protocolUrl https).host := by
  obtain ⟨d, hd⟩ : ∃ d, (m.protocolUrl https).host = some (.domain d) := by
    unfold protocolUrl
    split_ifs <;> exact ⟨_, rfl⟩
  rw [Url.domain_eq_some.mpr hd, Url.domain_eq_some, hd]

/-- The second test accepts what has the origin of the configured URL, or else of the app's own
protocol URL. -/
theorem belongsToApp_of_makeRelative {https : Bool}
    (h : (U.makeRelative (m.getUrl https) url).isSome) : m.BelongsToApp url := by
  obtain ⟨-, hsame⟩ := (U.isSome_makeRelative _ _).mp h
  unfold getUrl at hsame
  cases hbase : m.basePath with
  | none =>
    rw [hbase] at hsame
    exact .inl ⟨https, hsame.1.symm, hsame.2.1.symm⟩
  | some base =>
    rw [hbase] at hsame
    exact .inr (.inl ⟨base, hbase, hsame⟩)

theorem isLocalUrl_cases (h : m.isLocalUrl U url = true) : m.BelongsToApp url ∨
      m.servesOverHttp = true ∧ maybeProtocol url ∈ m.uriSchemeProtocols ∧
        (url.scheme = "http" ∨ url.scheme = "https") := by
  simp only [isLocalUrl, Bool.or_eq_true, Bool.and_eq_true, beq_iff_eq] at h
  rcases h with (⟨hsch, hdomain⟩ | hrel) | hprot
  · exact .inl (.inl ⟨_, hsch, (domain_protocolUrl m _ url).mp hdomain⟩)
  · exact .inl (belongsToApp_of_makeRelative hrel)
  · cases hhttp : m.servesOverHttp with
    | true =>
      simp only [hhttp, if_true, Bool.and_eq_true, decide_eq_true_eq, beq_iff_eq] at hprot
      exact .inr ⟨rfl, hprot.1, (protocolUrl_scheme_eq_iff hhttp url).mp hprot.2⟩
    | false =>
      simp only [hhttp, Bool.false_eq_true, if_false, decide_eq_true_eq] at hprot
      refine .inl (.inr (.inr ⟨url.scheme, hprot, ?_⟩))
      rw [hhttp]
      exact rfl

theorem isLocalUrl_of_maybeProtocol (U : UrlCrate) (hhttp : m.servesOverHttp = true)
    (hprot : maybeProtocol url ∈ m.uriSchemeProtocols)
    (hsch : url.scheme = "http" ∨ url.scheme = "https") : m.isLocalUrl U url = true := by
  simp only [isLocalUrl, Bool.or_eq_true, hhttp, if_true, Bool.and_eq_true, decide_eq_true_eq,
    beq_iff_eq]
  exact .inr ⟨hprot, (protocolUrl_scheme_eq_iff hhttp url).mpr hsch⟩

theorem belongsToApp_iff_of_servesOverHttp (hhttp : m.servesOverHttp = true)
    (hsch : url.scheme = "http" ∨ url.scheme = "https") :
    m.BelongsToApp url ↔ url.host = some (.domain "tauri.localhost") ∨
      (∃ base, m.basePath = some base ∧ base.SameOrigin url) ∨
      ∃ p ∈ m.uriSchemeProtocols, url.host = some (.domain (p ++ ".localhost")) := by
  have hown : (∃ https, url.scheme = (m.protocolUrl https).scheme ∧
      url.host = (m.protocolUrl https).host) ↔ url.host = some (.domain "tauri.localhost") := by
    simp only [protocolUrl, hhttp, if_true, exists_and_right, and_iff_right_iff_imp]
    rcases hsch with hs | hs
    · exact fun _ => ⟨false, hs⟩
    · exact fun _ => ⟨true, hs⟩
  simp only [BelongsToApp, hown, hhttp, if_true, hsch, true_and]

theorem aclOrigin_eq_local : m.aclOrigin U url = .local_ ↔ m.isLocalUrl U url = true := by
  unfold aclOrigin
  split_ifs with h <;> simp [h]

/-! ### Soundness of the classification -/

/-- **When local pages are the app's own.** A URL that is classified as local, and hence every
page that is given the local origin, belongs to the app exactly when protocols are not served
over HTTP, or the page is not an HTTP page, or the first label of its host is not the name of a
registered protocol, or its host is one the app does own. -/
theorem isLocalUrl_sound_iff (U : UrlCrate) (m : AppManager) (url : Url) :
    ((m.isLocalUrl U url = true → m.BelongsToApp url) ∧
      (m.aclOrigin U url = .local_ → m.BelongsToApp url)) ↔
      (m.target ≠ .windows ∧ m.target ≠ .android) ∨
      (url.scheme ≠ "http" ∧ url.scheme ≠ "https") ∨
      maybeProtocol url ∉ m.uriSchemeProtocols ∨
      url.host = some (.domain "tauri.localhost") ∨
      (∃ base, m.basePath = some base ∧ base.SameOrigin url) ∨
      ∃ p ∈ m.uriSchemeProtocols, url.host = some (.domain (p ++ ".localhost")) := by
  have htarget : m.servesOverHttp = true ↔ ¬ (m.target ≠ .windows ∧ m.target ≠ .android) := by
    simp only [servesOverHttp, Bool.or_eq_true, beq_iff_eq, ne_eq, not_and_or, not_not]
  rw [aclOrigin_eq_local, and_self]
  by_cases hhttp : m.servesOverHttp = true
  · rw [or_iff_right (htarget.mp hhttp), ← not_or]
    by_cases hsch : url.scheme = "http" ∨ url.scheme = "https"
    · rw [or_iff_right (not_not.mpr hsch), ← belongsToApp_iff_of_servesOverHttp hhttp hsch,
        ← imp_iff_not_or]
      constructor
      · intro hsound hprot
        exact hsound (isLocalUrl_of_maybeProtocol U hhttp hprot hsch)
      · intro hprot hloc
        rcases isLocalUrl_cases hloc with hbelongs | ⟨-, hmem, -⟩
        · exact hbelongs
        · exact hprot hmem
    · refine iff_of_true (fun hloc => ?_) (.inl hsch)
      rcases isLocalUrl_cases hloc with hbelongs | ⟨-, -, hs⟩
      · exact hbelongs
      · exact absurd hs hsch
  · refine iff_of_true (fun hloc => ?_) (.inl (not_not.mp (mt htarget.mpr hhttp)))
    rcases isLocalUrl_cases hloc with hbelongs | ⟨hs, -⟩
    · exact hbelongs
    · exact absurd hs hhttp

/-- A `make_relative` as documented. -/
def sampleUrlCrate : UrlCrate where
  makeRelative base url :=
    if base.cannotBeABase = false ∧ base.SameOrigin url then some "" else none
  isSome_makeRelative base url := by simp

/-- With the protocol `asset` on Windows, a page of `asset.evil.com` is local. -/
theorem asset_page_of_foreign_host_is_local :
    let m : AppManager := ⟨.windows, none, {"asset"}⟩
    let url : Url := { scheme := "http", host := some (.domain "asset.evil.com") }
    m.aclOrigin sampleUrlCrate url = .local_ ∧ ¬ m.BelongsToApp url := by
  intro m url
  have hhttp : m.servesOverHttp = true := rfl
  have hsch : url.scheme = "http" ∨ url.scheme = "https" := .inl rfl
  refine ⟨aclOrigin_eq_local.mpr (isLocalUrl_of_maybeProtocol _ hhttp (by decide) hsch), ?_⟩
  rw [belongsToApp_iff_of_servesOverHttp hhttp hsch]
  rintro (hhost | ⟨base, hbase, -⟩ | ⟨p, hp, hhost⟩)
  · exact absurd hhost (by decide)
  · cases hbase
  · obtain rfl := Finset.mem_singleton.mp hp
    exact absurd hhost (by decide)

end AppManager

end Tauri.Webview
