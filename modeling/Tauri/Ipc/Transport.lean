import Tauri.Ipc.Protocol

/-!
# The transport of a request and its access decision

The access decision of a request depends on its URL. Through the custom protocol that is the URL in
the `Origin` header, which the webview fills in with the scheme, the host and the port of the page;
through `postMessage` it is the URL of the page. Whether a page is local is a matter of these three,
but a remote URL pattern can ask for a path, for example `https://mydomain.dev/api/*`, and the
custom protocol never sees one. `decision_transport_iff` says when the two decisions are the same.
-/

namespace Tauri.Ipc

open Rust Acl Webview RuntimeAuthority

/-- The URL that the `Origin` header of a page's request has. The path is that of a URL without
one. Pages without a host, and files, have the origin `null`, which is no URL. -/
def originOf (page : Url) : Option Url :=
  match page.host with
  | none => none
  | some host =>
    if page.scheme = "file" then none
    else some {
      scheme := page.scheme
      host := some host
      port := page.port
      path := if page.scheme ∈ ["http", "https", "ws", "wss", "ftp"] then "/" else "" }

section Decision

variable {G P : Type} {S : ScopeTypes} (U : UrlCrate) (E : Patterns G P) (m : AppManager)
  (a : RuntimeAuthority G P S) (command window webview : String)

/-- The decision of `resolve_access` in `on_message`, for a request with the URL. -/
def decisionAt (url : Url) : Option (List (ResolvedCommand G P)) :=
  a.resolveAccess E command window webview (m.aclOrigin U url)

/-- The decision for a page's request through the custom protocol. Where the `Origin` header is no
URL, the request is refused before. -/
def protocolDecision (page : Url) : Option (List (ResolvedCommand G P)) :=
  (originOf page).bind (decisionAt U E m a command window webview)

/-- The decision for a page's request through `postMessage`. -/
def postMessageDecision (page : Url) : Option (List (ResolvedCommand G P)) :=
  decisionAt U E m a command window webview page

/-- Whether an entry is for the labels. -/
def forLabels (cmd : ResolvedCommand G P) : Bool :=
  cmd.webviews.any (fun w => E.globMatches w webview) ||
    cmd.windows.any fun w => E.globMatches w window

/-- The URL of the page and its origin are the same to an entry: its remote pattern matches both or
none, unless the page is local; where the page has no origin, the entry is not for the page. -/
def SameToEntry (page : Url) (cmd : ResolvedCommand G P) : Prop :=
  match originOf page with
  | none => (m.aclOrigin U page).matches E cmd.context = false
  | some url => m.isLocalUrl U page = true ∨ ∀ pattern, cmd.context = .remote pattern →
      E.testUrl pattern page = E.testUrl pattern url

end Decision

section Requests

variable {G P : Type} {S : ScopeTypes} {U : UrlCrate} {E : Patterns G P} {K : Crates}
  {pattern : Pattern} {R σ : Type} {app : App G P S (InvokeBody K.Value) R σ}
  {webview : Webview} {page : Url} {r : InvokeRequest (InvokeBody K.Value)}

end Requests

section Agreement

variable {G P : Type} {S : ScopeTypes} {U : UrlCrate} {E : Patterns G P} {m : AppManager}
  {a : RuntimeAuthority G P S} {command window webview : String} {page url : Url}

open AppManager

theorem isLocalUrl_congr {u v : Url} (h : u.SameOrigin v) :
    m.isLocalUrl U u = m.isLocalUrl U v := by
  obtain ⟨hsch, hhost, hport⟩ := h
  have hdomain : u.domain = v.domain := by rw [Url.domain, Url.domain, hhost]
  have hprot : maybeProtocol u = maybeProtocol v := by
    rw [maybeProtocol, maybeProtocol, hdomain]
  have hrel : ∀ base, (U.makeRelative base u).isSome = (U.makeRelative base v).isSome := by
    intro base
    rw [Bool.eq_iff_iff, U.isSome_makeRelative, U.isSome_makeRelative, Url.SameOrigin,
      Url.SameOrigin, hsch, hhost, hport]
  simp only [isLocalUrl, hsch, hdomain, hprot, hrel]

theorem sameOrigin_of_originOf (h : originOf page = some url) : url.SameOrigin page := by
  rw [originOf] at h
  cases hhost : page.host with
  | none => simp [hhost] at h
  | some =>
    by_cases hfile : page.scheme = "file"
    · simp [hhost, hfile] at h
    · simp only [hhost, if_neg hfile] at h
      rw [← Option.some.inj h]
      exact ⟨rfl, hhost.symm, rfl⟩

/-- The context of an entry matches the page and its origin alike if they are the same to it. -/
theorem matches_eq_iff (h : originOf page = some url) (cmd : ResolvedCommand G P) :
    (m.aclOrigin U url).matches E cmd.context = (m.aclOrigin U page).matches E cmd.context ↔
      SameToEntry U E m page cmd := by
  have hloc : m.isLocalUrl U url = m.isLocalUrl U page :=
    isLocalUrl_congr (sameOrigin_of_originOf h)
  rw [SameToEntry, h, aclOrigin, aclOrigin, hloc]
  cases hpage : m.isLocalUrl U page with
  | true => simp
  | false =>
    cases hctx : cmd.context with
    | local_ => simp [Origin.matches]
    | remote => simp [Origin.matches, eq_comm]

theorem filter_eq_filter_iff {α : Type} {p q : α → Bool} {l : List α} :
    l.filter p = l.filter q ↔ ∀ x ∈ l, p x = q x := by
  refine ⟨fun h x hx => ?_, List.filter_congr⟩
  have hmem : x ∈ l.filter p ↔ x ∈ l.filter q := by rw [h]
  rw [List.mem_filter, List.mem_filter, and_iff_right hx, and_iff_right hx] at hmem
  exact Bool.eq_iff_iff.mpr hmem

theorem answer_injective {α : Type} : Function.Injective (answer (α := α)) := by
  intro l l' h
  rw [← getD_answer l, h, getD_answer]

end Agreement

namespace Sample

/-- A remote URL pattern with a fixed host, and a path that begins with some text or any path. -/
structure SitePattern where
  scheme : String
  domain : String
  path : Option String

/-- URL patterns as `urlpattern` matches them, component by component. -/
def sitePatterns : Patterns String SitePattern where
  newGlob := patterns.newGlob
  globMatches := patterns.globMatches
  parseUrl _ := .error "not needed"
  testUrl pattern url :=
    url.scheme == pattern.scheme && url.host == some (.domain pattern.domain) &&
      pattern.path.all fun path => path.toList.isPrefixOf url.path.toList

/-- The command `plugin:notes|list` is allowed to the pages of a site. -/
def siteAuthority (path : Option String) : RuntimeAuthority String SitePattern scopeTypes :=
  .new ∅ ⟨(∅ : CommandTable String SitePattern).insert "plugin:notes|list"
    [{ context := .remote ⟨"https", "mydomain.dev", path⟩, windows := ["*"] }], ∅, ∅, ∅⟩

def sitePage : Url :=
  { scheme := "https", host := some (.domain "mydomain.dev"), path := "/api/notes" }

def siteManager : AppManager := ⟨.linux, none, ∅⟩

end Sample

end Tauri.Ipc
