import Mathlib

/-!
# URLs

A parsed URL, with the components the accessors of the `url` crate return. The parser itself
stays outside: every statement of the development is about an arbitrary value of `Url`, and the
few URLs the program parses from literals are written out by component.

`UrlCrate` is what the program relies on of `Url::make_relative`, which is not part of the
repository.
-/

namespace Tauri

/-- The host of a URL. -/
inductive Host where
  | domain (d : String)
  | ipv4 (addr : BitVec 32)
  | ipv6 (addr : BitVec 128)
  deriving DecidableEq, Repr

/-- A parsed URL. The port is `none` where it is the default port of the scheme, and
`cannotBeABase` holds of URLs such as `data:…` whose path is opaque. -/
structure Url where
  scheme : String
  username : String := ""
  password : Option String := none
  host : Option Host
  port : Option (Fin 65536) := none
  path : String := "/"
  query : Option String := none
  fragment : Option String := none
  cannotBeABase : Bool := false
  deriving DecidableEq, Repr

namespace Url

/-- `Url::domain`: the host, when it is a name and not an address. -/
def domain (url : Url) : Option String :=
  match url.host with
  | some (.domain d) => some d
  | _ => none

theorem domain_eq_some {url : Url} {d : String} :
    url.domain = some d ↔ url.host = some (.domain d) := by
  unfold domain
  split
  · next d' hd => simp [hd]
  · simp_all

/-- Two URLs have the same scheme, host and port. -/
def SameOrigin (u v : Url) : Prop := u.scheme = v.scheme ∧ u.host = v.host ∧ u.port = v.port

instance (u v : Url) : Decidable (SameOrigin u v) := inferInstanceAs (Decidable (_ ∧ _ ∧ _))

end Url

/-- `Url::make_relative` of the `url` crate, with its documented domain: it answers when the
base URL can be a base and scheme, host and port are the same. -/
structure UrlCrate where
  makeRelative : Url → Url → Option String
  isSome_makeRelative : ∀ base url,
    (makeRelative base url).isSome ↔ base.cannotBeABase = false ∧ base.SameOrigin url

end Tauri
