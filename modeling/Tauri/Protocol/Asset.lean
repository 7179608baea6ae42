import Tauri.Ipc.Protocol
import Tauri.Rust.File
import Tauri.Rust.PathBuf
import Tauri.Rust.Percent

/-!
# The asset protocol

Files of the file system are served under the scheme `asset`. A request with a `Range` header gets
the bytes it asks for, but never more than `maxLen` of them, and a client that wants the rest asks
again from the byte after the last one it got. `get_streams` says that this loses nothing: each
answer is a part of the file, none of them is empty, and together they are the file.

Without a `Range` header the answer is the whole file, except to a request of the method **HEAD**,
which gets the headers only.
-/

namespace Tauri.AssetProtocol

open Rust Rust.PathBuf Ipc Webview List Outcome

/-- An answer of the protocol. -/
structure Response where
  status : Nat := 200
  headers : List (String × String) := []
  body : List UInt8 := []
  deriving DecidableEq

/-- `Builder::header`. -/
def Response.header (response : Response) (name value : String) : Response :=
  { response with headers := response.headers ++ [(name, value)] }

/-- `HeaderMap::get`. -/
def Response.get (response : Response) (name : String) : Option String :=
  (response.headers.find? fun header => header.1 == name).map (·.2)

/-- `http_range::HttpRange`. -/
structure HttpRange where
  start : Nat
  length : Nat
  deriving DecidableEq, Repr

/-- The crate `http_range`: `parse` gives ranges within the file only, and it reads a range with an
open end. -/
structure RangeCrate where
  parse : String → Nat → Option (List HttpRange)
  within : ∀ {header len ranges}, parse header len = some ranges →
    ∀ r ∈ ranges, 1 ≤ r.length ∧ r.start + r.length ≤ len
  openEnd : ∀ {k len}, k < len →
    ∃ length, parse ("bytes=" ++ toString k ++ "-") len = some [⟨k, length⟩]

/-- What the protocol is set up with: the scope, the file system, the origin of the window, and
what the parsers of other crates and the random numbers are. -/
structure Setup where
  isAllowed : String → Bool
  openFile : String → Except String Content
  windowOrigin : String
  mimeType : List UInt8 → String → String
  httpRange : RangeCrate
  random : Fin 30 → UInt8

/-- `random_boundary`: the random bytes in hexadecimal, without leading zeros. -/
def randomBoundary (random : Fin 30 → UInt8) : String :=
  String.ofList ((List.ofFn random).flatMap fun x => Nat.toDigits 16 x.toNat)

/-- `SafePathBuf::new`. -/
def safePath (path : String) : Except String Unit :=
  if (components path.toList).any (· == .parentDir) then
    .error "cannot traverse directory, rewrite the path without the use of `../`"
  else .ok ()

/-- The path of the file that a request is for, without the leading slash. -/
def requestPath (request : HttpRequest) : String := percentDecodeLossy (request.path.drop 1)

/-- The `Range` header of a request, if it is a text. -/
def rangeHeader (request : HttpRequest) : Option String :=
  ((headerGet request.headers "range").bind headerToStr).map headerText

/-- `MAX_LEN`. -/
def maxLen : Nat := 1000 * 1024

/-- The answer to ranges that are not in the file. -/
def notSatisfiable (len : Nat) : Response :=
  Response.header { status := 416 } "content-range" ("bytes */" ++ toString len)

/-- The text of a `Content-Range` header. -/
def contentRange (start last len : Nat) : String :=
  "bytes " ++ toString start ++ "-" ++ toString last ++ "/" ++ toString len

/-- The last byte of a range after the adjustment for `maxLen`. -/
def adjustEnd (len start last : Nat) : Outcome String Nat := do
  let wanted ← subU64 last start
  let rest ← subU64 len start
  addU64 start (min (min wanted rest) (maxLen - 1))

/-- The answer to a `Range` header with one range, from `start` to `last`. -/
def singleRange (resp : Response) (file : File) (len start last : Nat) :
    Outcome String Response := do
  if start ≥ len ∨ last ≥ len ∨ last < start then
    return notSatisfiable len
  let last ← adjustEnd len start last
  let nbytes ← subU64 (← addU64 last 1) start
  let (buf, _) := (file.seekStart start).take nbytes
  let resp := resp.header "content-range" (contentRange start last len)
  let resp := resp.header "content-length" (toString (← subU64 (← addU64 last 1) start))
  return { resp with status := 206, body := buf }

/-- The ranges that a header with several of them is answered with. -/
def satisfiable (len : Nat) : List (Nat × Nat) → Outcome String (List (Nat × Nat))
  | [] => .ok []
  | (start, last) :: ranges =>
    if start ≥ len ∨ last ≥ len ∨ last < start then satisfiable len ranges
    else do
      let last ← adjustEnd len start last
      return (start, last) :: (← satisfiable len ranges)

/-- One pass of the loop that writes the parts. **The loop takes the pairs apart in the other
order**: what it calls `end` is the start of the range. -/
def writePart (mimeType boundarySep : String) (len : Nat) (state : List UInt8 × File)
    (range : Nat × Nat) : Outcome String (List UInt8 × File) := do
  let (buf, file) := state
  let (last, start) := range
  let buf := buf ++ bytes boundarySep
  let buf := buf ++ bytes ("content-type: " ++ mimeType ++ "\r\n")
  let buf := buf ++ bytes ("content-range: " ++ contentRange start last len ++ "\r\n")
  let buf := buf ++ bytes "\r\n"
  let nbytes ← subU64 (← addU64 last 1) start
  let (localBuf, file) := (file.seekStart start).take nbytes
  return (buf ++ localBuf, file)

/-- The answer to a `Range` header with another number of ranges. -/
def multiRange (resp : Response) (file : File) (len : Nat) (mimeType boundary : String)
    (ranges : List (Nat × Nat)) : Outcome String Response := do
  let ranges ← satisfiable len ranges
  let boundarySep := "\r\n--" ++ boundary ++ "\r\n"
  let boundaryCloser := "\r\n--" ++ boundary ++ "\r\n"
  let resp := resp.header "content-type" ("multipart/byteranges; boundary=" ++ boundary)
  let (buf, _) ← ranges.foldlM (writePart mimeType boundarySep len) ([], file)
  return { resp with body := buf ++ bytes boundaryCloser }

/-- The ranges of the crate as pairs of a first and a last byte. -/
def specRanges (ranges : List HttpRange) : Outcome String (List (Nat × Nat)) :=
  ranges.mapM fun r => do return (r.start, ← subU64 (← addU64 r.start r.length) 1)

/-- The opened file, its length, its type and its content if that was read for the type. -/
def inspect (A : Setup) (path : String) (file : File) :
    File × Nat × String × Option (List UInt8) :=
  let oldPos := file.position
  let (len, file) := file.seekEnd
  let file := file.seekStart oldPos
  let nbytes := min len 8192
  let oldPos := file.position
  let (magicBuf, file) := file.take nbytes
  let file := file.seekStart oldPos
  (file, len, A.mimeType magicBuf path, if len < 8192 then some magicBuf else none)

/-- `get_response`. -/
def getResponse (A : Setup) (request : HttpRequest) : Outcome String Response := do
  let path := requestPath request
  let resp := Response.header {} "access-control-allow-origin" A.windowOrigin
  match safePath path with
  | .error _ => return { resp with status := 403 }
  | .ok () =>
  if !A.isAllowed path then return { resp with status := 403 }
  match A.openFile path with
  | .error e => .err e
  | .ok content =>
  let (file, len, mimeType, readBytes) := inspect A path (.opened content)
  let resp := resp.header "content-type" mimeType
  match rangeHeader request with
  | some header =>
    let resp := resp.header "accept-ranges" "bytes"
    let resp := resp.header "access-control-expose-headers" "content-range"
    match A.httpRange.parse header len with
    | none => return notSatisfiable len
    | some ranges =>
      match ← specRanges ranges with
      | [(start, last)] => singleRange resp file len start last
      | ranges => multiRange resp file len mimeType (randomBoundary A.random) ranges
  | none =>
    if request.method = "HEAD" then return resp.header "content-length" (toString len)
    let buf := match readBytes with
      | some b => b
      | none => file.readToEnd.1
    return { resp.header "content-length" (toString len) with body := buf }

/-- The handler of the scheme, `get`. -/
def get (A : Setup) (request : HttpRequest) : Outcome String Response :=
  match getResponse A request with
  | .err e =>
    let resp := Response.header { status := 500, body := bytes e } "content-type" "text/plain"
    .ok (resp.header "access-control-allow-origin" A.windowOrigin)
  | answer => answer

/-! ### What is served -/

/-- The protocol gives access to a file under a path. -/
structure Serves (A : Setup) (path : String) (content : Content) : Prop where
  safe : safePath path = .ok ()
  allowed : A.isAllowed path = true
  opened : A.openFile path = .ok content

/-- The headers that every answer about a file begins with. -/
def fileResponse (A : Setup) (path : String) (content : Content) : Response :=
  (Response.header {} "access-control-allow-origin" A.windowOrigin).header "content-type"
    (A.mimeType (content.bytes.take (min content.len 8192)) path)

/-- The headers that an answer about parts of a file begins with. -/
def rangeResponse (A : Setup) (path : String) (content : Content) : Response :=
  ((fileResponse A path content).header "accept-ranges" "bytes").header
    "access-control-expose-headers" "content-range"

/-- The answer that holds the bytes from `start` to `last`. -/
def partialResponse (resp : Response) (content : Content) (start last : Nat) : Response :=
  { (resp.header "content-range" (contentRange start last content.len)).header "content-length"
      (toString (last + 1 - start)) with
    status := 206
    body := (content.bytes.drop start).take (last + 1 - start) }

/-- The last byte that a range is answered with. -/
def HttpRange.served (r : HttpRange) : Nat := r.start + (min r.length maxLen - 1)

section Streaming

variable {A : Setup} {path header : String} {content : Content} {request : HttpRequest}
  {ranges : List HttpRange} {r : HttpRange}

theorem adjustEnd_eq {len start last : Nat} (hlen : len < 2 ^ 64) (hstart : start ≤ last)
    (hlast : last < len) :
    adjustEnd len start last = .ok (start + min (last - start) (maxLen - 1)) := by
  have hmin : min (min (last - start) (len - start)) (maxLen - 1) =
      min (last - start) (maxLen - 1) := by
    omega
  simp only [adjustEnd, subU64_of_le hstart, subU64_of_le (show start ≤ len by omega),
    ok_bind, hmin]
  exact addU64_of_lt (by omega)

theorem specRanges_eq {len : Nat} (hlen : len < 2 ^ 64)
    (h : ∀ r ∈ ranges, 1 ≤ r.length ∧ r.start + r.length ≤ len) :
    specRanges ranges = .ok (ranges.map fun r => (r.start, r.start + r.length - 1)) := by
  induction ranges with
  | nil => rfl
  | cons _ _ ih =>
    obtain ⟨⟨hone, hle⟩, hranges⟩ := forall_mem_cons.mp h
    have hrest := ih hranges
    rw [specRanges] at hrest ⊢
    rw [mapM_cons, hrest, addU64_of_lt (by omega), ok_bind, subU64_of_le (by omega)]
    rfl

open HttpRange

theorem singleRange_eq (resp : Response) (hone : 1 ≤ r.length)
    (hle : r.start + r.length ≤ content.len) :
    singleRange resp (.opened content) content.len r.start (r.start + r.length - 1) =
      .ok (partialResponse resp content r.start r.served) := by
  have hlen := content.len_lt
  have hadjust : r.start + min (r.start + r.length - 1 - r.start) (maxLen - 1) = r.served := by
    rw [served]
    omega
  have hserved : r.start ≤ r.served ∧ r.served < content.len := by
    rw [served]
    omega
  rw [singleRange, if_neg (by omega), adjustEnd_eq hlen (by omega) (by omega), ok_bind, hadjust]
  simp only [addU64_of_lt (show r.served + 1 < 2 ^ 64 by omega),
    subU64_of_le (show r.start ≤ r.served + 1 by omega), ok_bind]
  rfl

theorem inspect_opened (A : Setup) (path : String) (content : Content) :
    inspect A path (.opened content) = (.opened content, content.len,
      A.mimeType (content.bytes.take (min content.len 8192)) path,
      if content.len < 8192 then some content.bytes else none) := by
  have hread : inspect A path (.opened content) = (.opened content, content.len,
      A.mimeType (content.bytes.take (min content.len 8192)) path,
      if content.len < 8192 then some (content.bytes.take (min content.len 8192)) else none) :=
    rfl
  rw [hread]
  by_cases hsmall : content.len < 8192
  · rw [if_pos hsmall, if_pos hsmall, Nat.min_eq_left (by omega), Content.len, take_length]
  · rw [if_neg hsmall, if_neg hsmall]

theorem getResponse_eq (request : HttpRequest) (hs : Serves A path content)
    (hpath : requestPath request = path) :
    getResponse A request =
      match rangeHeader request with
      | some header =>
        match A.httpRange.parse header content.len with
        | none => .ok (notSatisfiable content.len)
        | some ranges => specRanges ranges >>= fun
          | [(start, last)] =>
            singleRange (rangeResponse A path content) (.opened content) content.len start last
          | ranges =>
            multiRange (rangeResponse A path content) (.opened content) content.len
              (A.mimeType (content.bytes.take (min content.len 8192)) path)
              (randomBoundary A.random) ranges
      | none =>
        let resp := (fileResponse A path content).header "content-length" (toString content.len)
        .ok (if request.method = "HEAD" then resp else { resp with body := content.bytes }) := by
  rw [getResponse]
  simp only [hpath, hs.safe, hs.allowed, hs.opened, inspect_opened, Bool.not_true,
    Bool.false_eq_true, if_false]
  cases rangeHeader request with
  | some => rfl
  | none =>
    by_cases hhead : request.method = "HEAD"
    · simp only [hhead, if_true]
      rfl
    · simp only [hhead, if_false]
      by_cases hsmall : content.len < 8192
      · simp only [hsmall, if_true]
        rfl
      · simp only [hsmall, if_false]
        rfl

theorem get_of_ok {resp : Response} (h : getResponse A request = .ok resp) :
    get A request = .ok resp := by
  rw [get, h]

variable (request)

theorem get_singleRange (hs : Serves A path content)
    (hpath : requestPath request = path)
    (hhd : rangeHeader request = some header)
    (hparse : A.httpRange.parse header content.len = some [r]) :
    get A request =
      .ok (partialResponse (rangeResponse A path content) content r.start r.served) := by
  have hin := A.httpRange.within hparse
  obtain ⟨hone, hle⟩ := hin r (mem_singleton_self r)
  refine get_of_ok ?_
  rw [getResponse_eq request hs hpath, hhd]
  simp only [hparse, specRanges_eq content.len_lt hin, map_cons, map_nil, ok_bind]
  exact singleRange_eq _ hone hle

theorem served_lt (hone : 1 ≤ r.length) (hle : r.start + r.length ≤ content.len) :
    r.start ≤ r.served ∧ r.served < r.start + r.length ∧ r.served + 1 - r.start ≤ maxLen ∧
      r.served < content.len := by
  have hmax : 1 ≤ maxLen := by decide
  rw [served]
  omega

theorem length_partialResponse (resp : Response) (start : Nat) {last : Nat}
    (hlast : last < content.len) :
    (partialResponse resp content start last).body.length = last + 1 - start := by
  rw [Content.len] at hlast
  rw [partialResponse, length_take, length_drop]
  omega

theorem partialResponse_contentRange (start last : Nat) :
    (partialResponse (rangeResponse A path content) content start last).get "content-range" =
      some (contentRange start last content.len) := by
  simp [partialResponse, rangeResponse, fileResponse, Response.get, Response.header]

theorem partialResponse_contentLength (start last : Nat) :
    (partialResponse (rangeResponse A path content) content start last).get "content-length" =
      some (toString (last + 1 - start)) := by
  simp [partialResponse, rangeResponse, fileResponse, Response.get, Response.header]

/-! ### The client -/

/-- The `Range` header from a byte on. -/
def openRange (k : Nat) : String := "bytes=" ++ toString k ++ "-"

/-- The request with a `Range` header. -/
def withRange (request : HttpRequest) (header : String) : HttpRequest :=
  { request with headers := ("range", bytes header) :: request.headers }

/-- The last byte of the range that a `Content-Range` header names. -/
def lastByte (contentRange : String) : Option Nat :=
  let range := contentRange.toList.dropWhile (· != '-')
  (String.ofList ((range.drop 1).takeWhile (· != '/'))).toNat?

/-- A client that asks for the rest of a file until it has `len` bytes. -/
def download (A : Setup) (request : HttpRequest) (len : Nat) : Nat → Nat →
    Outcome String (List UInt8)
  | 0, k => if len ≤ k then .ok [] else .outOfFuel
  | fuel + 1, k =>
    if len ≤ k then .ok []
    else do
      let response ← get A (withRange request (openRange k))
      match (response.get "content-range").bind lastByte with
      | none => .err "no content range"
      | some last => return response.body ++ (← download A request len fuel (last + 1))

theorem rangeHeader_withRange
    (h : ∀ c ∈ header.toList, 32 ≤ c.toNat ∧ c.toNat < 127) :
    rangeHeader (withRange request header) = some header := by
  have hascii : bytes header = header.toList.map fun c => UInt8.ofNat c.toNat :=
    bytes_eq_map_toList fun c hc => by
      have := h c hc
      omega
  have hbyte : ∀ b ∈ bytes header, 32 ≤ b ∧ b < 127 := by
    intro b hb
    rw [hascii] at hb
    obtain ⟨c, hc, rfl⟩ := mem_map.mp hb
    have hrange := h c hc
    rw [UInt8.le_iff_toNat_le, UInt8.lt_iff_toNat_lt,
      UInt8.toNat_ofNat_of_lt' (Nat.lt_trans hrange.2 (by decide))]
    exact hrange
  have htext : headerText (bytes header) = header := by
    rw [headerText, ← toList_eq_map_bytes, String.ofList_toList]
    intro b hb
    have := (hbyte b hb).2
    rw [UInt8.lt_iff_toNat_lt] at this ⊢
    exact Nat.lt_trans this (by decide)
  have hvis : headerToStr (bytes header) = some (bytes header) := by
    rw [headerToStr, if_pos]
    refine all_eq_true.mpr fun b hb => ?_
    simp [hbyte b hb]
  rw [rangeHeader, withRange, headerGet, find?_cons_of_pos (by simp), Option.map_some,
    Option.bind_some, hvis, Option.map_some, htext]

theorem lastByte_contentRange (start last len : Nat) :
    lastByte (contentRange start last len) = some last := by
  have hne : ∀ {n : Nat} {d : Char}, d.toNat < 48 → ∀ c ∈ (toString n).toList, (c != d) = true := by
    intro n d hd c hc
    have hdigit := toNat_of_mem_toString hc
    refine bne_iff_ne.mpr ?_
    rintro rfl
    omega
  have htext : (contentRange start last len).toList =
      ("bytes ".toList ++ (toString start).toList) ++
        '-' :: ((toString last).toList ++ '/' :: (toString len).toList) := by
    simp [contentRange]
  have hunit : ∀ c ∈ "bytes ".toList, (c != '-') = true := by simp
  have hfirst : ∀ c ∈ "bytes ".toList ++ (toString start).toList, (c != '-') = true := by
    intro c hc
    rcases mem_append.mp hc with hc | hc
    · exact hunit c hc
    · exact hne (by decide) c hc
  rw [lastByte, htext, dropWhile_append_of_pos hfirst, dropWhile_cons_of_neg (by simp),
    drop_one, tail_cons, takeWhile_append_of_pos (hne (by decide)),
    takeWhile_cons_of_neg (by simp), append_nil, String.ofList_toList,
    Nat.toString_eq_repr, Nat.toNat?_repr]

theorem rangeHeader_openRange (k : Nat) :
    rangeHeader (withRange request (openRange k)) = some (openRange k) := by
  refine rangeHeader_withRange request fun c hc => ?_
  have hunit : ∀ c ∈ "bytes=".toList, 32 ≤ c.toNat ∧ c.toNat < 127 := by simp
  rw [openRange, String.toList_append, String.toList_append] at hc
  rcases mem_append.mp hc with hc | hc
  · rcases mem_append.mp hc with hc | hc
    · exact hunit c hc
    · have hdigit := toNat_of_mem_toString hc
      omega
  · rw [mem_singleton.mp hc]
    decide

/-- From any byte on the client gets the rest of the file: each answer has at least one byte of
it. -/
theorem download_eq (hs : Serves A path content)
    (hpath : requestPath request = path) {fuel k : Nat}
    (hfuel : content.len ≤ k + fuel) :
    download A request content.len fuel k = .ok (content.bytes.drop k) := by
  induction fuel generalizing k with
  | zero =>
    rw [Nat.add_zero] at hfuel
    rw [download, if_pos hfuel, drop_of_length_le hfuel]
  | succ fuel ih =>
    rw [download]
    by_cases hk : content.len ≤ k
    · rw [if_pos hk, drop_of_length_le hk]
    · obtain ⟨length, hparse⟩ := A.httpRange.openEnd (Nat.lt_of_not_le hk)
      have hget := get_singleRange (withRange request (openRange k)) hs hpath
        (rangeHeader_openRange request k) hparse
      obtain ⟨hone, hle⟩ := A.httpRange.within hparse _ (mem_singleton_self _)
      obtain ⟨hstart, -, -, hlast⟩ := served_lt hone hle
      -- The next request is for the byte after the last one of this answer.
      have hrest := ih (k := served ⟨k, length⟩ + 1) (by simp only at hstart; omega)
      rw [if_neg hk, hget, ok_bind, partialResponse_contentRange, Option.bind_some,
        lastByte_contentRange]
      simp only [hrest, ok_bind, pure_eq, partialResponse, ok.injEq]
      have hdrop : content.bytes.drop (served ⟨k, length⟩ + 1) =
          (content.bytes.drop k).drop (served ⟨k, length⟩ + 1 - k) := by
        rw [drop_drop]
        congr 1
        simp only at hstart
        omega
      rw [hdrop, take_append_drop]

variable {request}

/-- **Streaming is lossless.** A range is answered with its bytes, a positive number of them and at
most `maxLen`; a client that asks for the rest until it has all of the file gets the file; and a
request without a range is answered with the file, or with its headers if it is a HEAD request. -/
theorem get_streams (request : HttpRequest) (hs : Serves A path content)
    (hpath : requestPath request = path) :
    (∀ header r, rangeHeader request = some header →
      A.httpRange.parse header content.len = some [r] →
      ∃ resp last, get A request = .ok resp ∧ resp.status = 206 ∧
        last = r.start + min r.length maxLen - 1 ∧
        resp.body = (content.bytes.drop r.start).take (last + 1 - r.start) ∧
        1 ≤ resp.body.length ∧ resp.body.length ≤ 1000 * 1024 ∧
        resp.get "content-range" = some (contentRange r.start last content.len) ∧
        resp.get "content-length" = some (toString resp.body.length)) ∧
    (∀ fuel, content.len ≤ fuel →
      download A request content.len fuel 0 = .ok content.bytes) ∧
    (rangeHeader request = none → ∃ resp, get A request = .ok resp ∧ resp.status = 200 ∧
      resp.body = (if request.method = "HEAD" then [] else content.bytes) ∧
      resp.get "content-length" = some (toString content.len)) := by
  refine ⟨?_, ?_, ?_⟩
  · intro header r hhd hparse
    obtain ⟨hone, hle⟩ := A.httpRange.within hparse r (mem_singleton_self r)
    obtain ⟨hstart, -, hmax, hlast⟩ := served_lt hone hle
    have hlen := length_partialResponse (rangeResponse A path content) r.start hlast
    refine ⟨_, r.served, get_singleRange request hs hpath hhd hparse, rfl, ?_, rfl, ?_, ?_,
      partialResponse_contentRange _ _, ?_⟩
    · have hmax' : 1 ≤ maxLen := by decide
      rw [served]
      omega
    · omega
    · exact hlen.trans_le hmax
    · rw [partialResponse_contentLength, hlen]
  · intro fuel hfuel
    rw [download_eq request hs hpath (by omega), drop_zero]
  · intro hnone
    have hans := getResponse_eq request hs hpath
    rw [hnone] at hans
    refine ⟨_, get_of_ok hans, ?_⟩
    by_cases hhead : request.method = "HEAD" <;>
      simp [hhead, fileResponse, Response.get, Response.header]

end Streaming

/-! ### A file that is served -/

namespace Sample

theorem openRange_injective : Function.Injective openRange := by
  intro k k' h
  have htext : toString k = toString k' := by
    have hchars := congrArg String.toList h
    simp only [openRange, String.toList_append, append_left_inj, append_right_inj]
      at hchars
    exact String.toList_injective hchars
  have hread := congrArg String.toNat? htext
  rw [Nat.toString_eq_repr, Nat.toString_eq_repr, Nat.toNat?_repr, Nat.toNat?_repr] at hread
  exact Option.some.inj hread

/-- Two ranges of three bytes each. -/
def twoRanges : String := "bytes=0-2,4-6"

/-- Two ranges of one byte each. -/
def twoBytes : String := "bytes=0-0,4-4"

theorem getLast?_openRange (k : Nat) : (openRange k).toList.getLast? = some '-' := by
  rw [openRange, String.toList_append, getLast?_append]
  rfl

theorem openRange_ne (k : Nat) : openRange k ≠ twoRanges ∧ openRange k ≠ twoBytes := by
  constructor <;>
  · intro h
    exact absurd (h ▸ getLast?_openRange k) (by decide)

/-- A parser that knows the ranges with an open end, and the two headers with two ranges. -/
def rangeCrate : RangeCrate where
  parse header len :=
    if header = twoRanges ∧ 7 ≤ len then some [⟨0, 3⟩, ⟨4, 3⟩]
    else if header = twoBytes ∧ 5 ≤ len then some [⟨0, 1⟩, ⟨4, 1⟩]
    else ((List.range len).find? fun k => header == openRange k).map fun k => [⟨k, len - k⟩]
  within := by
    intro header len ranges h r hr
    have htwo : ∀ length, 4 + length ≤ len → 1 ≤ length →
        r ∈ [⟨0, length⟩, ⟨4, length⟩] → 1 ≤ r.length ∧ r.start + r.length ≤ len := by
      intro length hlen hone hr
      rcases List.mem_cons.mp hr with rfl | hr
      · exact ⟨hone, by simp only; omega⟩
      · rw [List.mem_singleton.mp hr]
        exact ⟨hone, hlen⟩
    split_ifs at h with hranges hbytes
    · cases h
      exact htwo 3 hranges.2 (by decide) hr
    · cases h
      exact htwo 1 hbytes.2 (by decide) hr
    · obtain ⟨k, hk, rfl⟩ := Option.map_eq_some_iff.mp h
      have hlt : k < len := List.mem_range.mp (List.mem_of_find?_eq_some hk)
      rw [List.mem_singleton.mp hr]
      simp only
      omega
  openEnd := by
    intro k len hk
    rw [if_neg fun h => (openRange_ne k).1 h.1, if_neg fun h => (openRange_ne k).2 h.1]
    have hsome : ((List.range len).find? fun j => openRange k == openRange j) = some k := by
      rw [List.find?_range_eq_some]
      refine ⟨by simp, List.mem_range.mpr hk, ?_⟩
      intro j hj
      simpa using fun h => hj.ne' (openRange_injective h)
    exact ⟨len - k, by rw [← openRange, hsome]; rfl⟩

/-- A file of seven bytes. -/
def content : Content := ⟨[10, 11, 12, 13, 14, 15, 16], by decide⟩

/-- One file, `f`, is served. -/
def setup : Setup where
  isAllowed path := path == "f"
  openFile path := if path = "f" then .ok content else .error "not found"
  windowOrigin := "tauri://localhost"
  mimeType _ _ := "text/plain"
  httpRange := rangeCrate
  random _ := 7

/-- A request for the file. -/
def request (method : String) : HttpRequest := ⟨method, bytes "/f", [], []⟩

end Sample

/-- The whole file and the part from its sixth byte on. -/
theorem sample_get_streams :
    Serves Sample.setup "f" Sample.content ∧
      download Sample.setup (Sample.request "GET") 7 7 0 = .ok Sample.content.bytes ∧
      ∃ resp last, get Sample.setup (withRange (Sample.request "GET") (openRange 5)) = .ok resp ∧
        last = 5 + min 2 maxLen - 1 ∧ resp.body = [15, 16] := by
  have hs : Serves Sample.setup "f" Sample.content := ⟨rfl, rfl, rfl⟩
  obtain ⟨-, hdownload, -⟩ := get_streams (Sample.request "GET") hs rfl
  obtain ⟨hsing, -, -⟩ := get_streams (withRange (Sample.request "GET") (openRange 5)) hs rfl
  obtain ⟨resp, last, hget, -, rfl, hbody, -⟩ :=
    hsing (openRange 5) ⟨5, 2⟩ (rangeHeader_openRange _ 5) rfl
  exact ⟨hs, hdownload 7 (by decide), resp, _, hget, rfl, hbody⟩

/-- A HEAD request has no range and is not answered with the file. -/
theorem head_without_body :
    Serves Sample.setup "f" Sample.content ∧
      rangeHeader (Sample.request "HEAD") = none ∧
      ∃ resp, get Sample.setup (Sample.request "HEAD") = .ok resp ∧
        resp.body ≠ Sample.content.bytes := by
  refine ⟨⟨rfl, rfl, rfl⟩, rfl, _, rfl, ?_⟩
  decide

end Tauri.AssetProtocol
