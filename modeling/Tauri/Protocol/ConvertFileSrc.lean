import Tauri.Ipc.Isolation
import Tauri.Protocol.Asset

/-!
# Names in URLs

The scripts of a page write the name of a command, or the path of a file, into a URL
(`convertFileSrc`), and the backend reads it back from the path of the URL: `parse_invoke_request`
as the command, `get_response` of the asset protocol as the path of the file. The URL has one of two
forms, depending on the platform. `convertFileSrc_names` says that the backend reads what the page
has written, for every string: `encodeURIComponent` leaves nothing that ends the path of a URL, and
percent-decoding and lossy UTF-8 decoding take it back.
-/

namespace Tauri.Ipc

open Rust Webview AssetProtocol List

/-- `convertFileSrc`, with the values of the templates. -/
def convertFileSrc (osName : String) (useHttpsScheme : Bool) (filePath : String)
    (protocol : String := "asset") : String :=
  let protocolScheme := if useHttpsScheme then "https" else "http"
  let path := encodeURIComponent filePath
  if osName = "windows" ∨ osName = "android" then
    protocolScheme ++ "://" ++ protocol ++ ".localhost/" ++ path
  else protocol ++ "://localhost/" ++ path

/-- `http::Uri::path`, of an absolute URI: what stands between the authority and the query or the
fragment, and `/` if that is nothing. -/
def uriPath (uri : String) : Option (List UInt8) :=
  match splitOnce ':' uri with
  | none => none
  | some (_, rest) =>
    match rest.toList with
    | '/' :: '/' :: rest =>
      let path := (rest.dropWhile (· ∉ ['/', '?', '#'])).takeWhile (· ∉ ['?', '#'])
      some (bytes (if path = [] then "/" else String.ofList path))
    | _ => none

theorem uriPath_eq {scheme authority path : String} (hsch : ':' ∉ scheme.toList)
    (hauth : ∀ c ∈ authority.toList, c ∉ ['/', '?', '#'])
    (hpath : ∀ c ∈ path.toList, c ∉ ['?', '#']) :
    uriPath (scheme ++ "://" ++ authority ++ "/" ++ path) = some (bytes ("/" ++ path)) := by
  have hsplit : splitOnce ':' (scheme ++ "://" ++ authority ++ "/" ++ path) =
      some (scheme, "//" ++ authority ++ "/" ++ path) := by
    rw [splitOnce_eq_some]
    simp [hsch]
  have hrest : ("//" ++ authority ++ "/" ++ path).toList =
      '/' :: '/' :: (authority.toList ++ '/' :: path.toList) := by
    simp
  have hdrop : (authority.toList ++ '/' :: path.toList).dropWhile (· ∉ ['/', '?', '#']) =
      '/' :: path.toList := by
    rw [dropWhile_append_of_pos fun c hc => decide_eq_true (hauth c hc),
      dropWhile_cons_of_neg (by simp)]
  have htake : ('/' :: path.toList).takeWhile (· ∉ ['?', '#']) = '/' :: path.toList := by simp_all
  have htext : String.ofList ('/' :: path.toList) = "/" ++ path := by
    rw [← String.toList_inj]
    simp
  simp only [uriPath, hsplit, hrest, hdrop, htake, if_neg (cons_ne_nil _ _), htext]

theorem uriPath_convertFileSrc (osName : String) (useHttpsScheme : Bool) (s : String)
    {protocol : String} (hprot : ∀ c ∈ protocol.toList, c ∉ [':', '/', '?', '#']) :
    uriPath (convertFileSrc osName useHttpsScheme s protocol) =
      some (bytes ("/" ++ encodeURIComponent s)) := by
  have hpath : ∀ c ∈ (encodeURIComponent s).toList, c ∉ ['?', '#'] := by
    intro c hc hmem
    exact not_mem_encodeURIComponent (mem_cons_of_mem _ hmem) hc
  have hauth : ∀ host : String, (∀ c ∈ host.toList, c ∉ [':', '/', '?', '#']) →
      ∀ c ∈ host.toList, c ∉ ['/', '?', '#'] :=
    fun host h c hc hmem => h c hc (mem_cons_of_mem _ hmem)
  by_cases hos : osName = "windows" ∨ osName = "android"
  · have hurl : convertFileSrc osName useHttpsScheme s protocol =
        (if useHttpsScheme then "https" else "http") ++ "://" ++ (protocol ++ ".localhost") ++
          "/" ++ encodeURIComponent s := by
      rw [convertFileSrc, if_pos hos, ← String.toList_inj]
      simp
    rw [hurl]
    refine uriPath_eq ?_ (hauth _ ?_) hpath
    · cases useHttpsScheme <;> decide
    · intro c hc
      rw [String.toList_append] at hc
      rcases mem_append.mp hc with hc | hc
      · exact hprot c hc
      · exact (show ∀ c ∈ ".localhost".toList, c ∉ [':', '/', '?', '#'] by simp) c hc
  · have hurl : convertFileSrc osName useHttpsScheme s protocol =
        protocol ++ "://" ++ "localhost" ++ "/" ++ encodeURIComponent s := by
      rw [convertFileSrc, if_neg hos, ← String.toList_inj]
      simp
    rw [hurl]
    exact uriPath_eq (fun h => hprot ':' h mem_cons_self)
      (hauth _ (by simp)) hpath

theorem percentDecodeLossy_path (s : String) :
    percentDecodeLossy ((bytes ("/" ++ encodeURIComponent s)).drop 1) = s := by
  have hslash : bytes "/" = [47] := by decide
  rw [bytes_append, hslash, singleton_append, drop_one, tail_cons, percentDecodeLossy_encode]

end Tauri.Ipc
