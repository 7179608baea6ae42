import Tauri.Protocol.Asset

/-!
# Several ranges at once

A request for several ranges of a file should be answered with what requests for each of them alone
are answered with, one part after the other, and a closing delimiter. The branch of `get_response`
that does this **takes the pairs of bytes apart in the wrong order**, so that a range is written
from its end to its start: it panics if the range has three bytes or more and names the wrong
bytes if it has two. And what it writes as the closing delimiter is an ordinary one.

`multiRange_agrees_iff` says what is left: the parts are right exactly if every range has one byte,
and the delimiter at the end is never the closing one.
-/

namespace Tauri.AssetProtocol

open Rust Ipc Webview List Outcome

/-- The bytes of a part: a delimiter, two headers, an empty line and the data. -/
def part (mimeType boundary range : String) (data : List UInt8) : List UInt8 :=
  bytes ("\r\n--" ++ boundary ++ "\r\n") ++ bytes ("content-type: " ++ mimeType ++ "\r\n") ++
    bytes ("content-range: " ++ range ++ "\r\n") ++ bytes "\r\n" ++ data

/-- The part that says the same as the answer to a request for one range. -/
def partOf (mimeType boundary : String) (single : Response) : List UInt8 :=
  part mimeType boundary ((single.get "content-range").getD "") single.body

/-- The answer consists of one part for each range, with what a request for that range alone is
answered with, and a delimiter followed by `close`. -/
def Agrees (A : Setup) (path : String) (content : Content) (request : HttpRequest)
    (ranges : List HttpRange) (close : List UInt8) : Prop :=
  ∃ resp singles, get A request = .ok resp ∧
    List.Forall₂ (fun r single => singleRange (rangeResponse A path content) (.opened content)
      content.len r.start (r.start + r.length - 1) = .ok single) ranges singles ∧
    resp.body = singles.flatMap (partOf
      (A.mimeType (content.bytes.take (min content.len 8192)) path) (randomBoundary A.random)) ++
      bytes ("\r\n--" ++ randomBoundary A.random) ++ close

section Multipart

variable {A : Setup} {path header : String} {content : Content} {request : HttpRequest}
  {ranges : List HttpRange} {r : HttpRange} {mimeType boundary : String}

/-- What the loop writes for a range. -/
def writtenPart (mimeType boundary : String) (content : Content) (range : Nat × Nat) : List UInt8 :=
  part mimeType boundary (contentRange range.2 range.1 content.len)
    ((content.bytes.drop range.2).take (range.1 + 1 - range.2))

theorem writePart_eq (mimeType boundary : String) (buf : List UInt8) {file : File}
    (hfile : file.content = content) {range : Nat × Nat} (hlt : range.1 + 1 < 2 ^ 64)
    (hle : range.2 ≤ range.1 + 1) :
    ∃ file' : File, file'.content = content ∧
      writePart mimeType ("\r\n--" ++ boundary ++ "\r\n") content.len (buf, file) range =
        .ok (buf ++ writtenPart mimeType boundary content range, file') := by
  subst hfile
  refine ⟨((file.seekStart range.2).take (range.1 + 1 - range.2)).2, rfl, ?_⟩
  simp only [writePart, addU64_of_lt hlt, subU64_of_le hle, ok_bind, File.take,
    File.seekStart, writtenPart, part, append_assoc]
  rfl

theorem writePart_panics {state : List UInt8 × File} {sep : String} {len : Nat} {range : Nat × Nat}
    (hlt : range.1 + 1 < range.2) (hrange : range.2 < 2 ^ 64) :
    writePart mimeType sep len state range = .panic "attempt to subtract with overflow" := by
  simp only [writePart, addU64_of_lt (show range.1 + 1 < 2 ^ 64 by omega), subU64_of_lt hlt,
    ok_bind, panic_bind]

theorem foldlM_writePart (mimeType boundary : String) {pairs : List (Nat × Nat)}
    (hpairs : ∀ p ∈ pairs, p.1 ≤ p.2 ∧ p.2 + 1 < 2 ^ 64) (buf : List UInt8) {file : File}
    (hfile : file.content = content) :
    ((∀ p ∈ pairs, p.2 ≤ p.1 + 1) → ∃ file',
      pairs.foldlM (writePart mimeType ("\r\n--" ++ boundary ++ "\r\n") content.len) (buf, file) =
        .ok (buf ++ pairs.flatMap (writtenPart mimeType boundary content), file')) ∧
    (¬(∀ p ∈ pairs, p.2 ≤ p.1 + 1) →
      pairs.foldlM (writePart mimeType ("\r\n--" ++ boundary ++ "\r\n") content.len) (buf, file) =
        .panic "attempt to subtract with overflow") := by
  induction pairs generalizing buf file with
  | nil => exact ⟨fun _ => ⟨file, by simp⟩, fun h => absurd (by simp) h⟩
  | cons p pairs ih =>
    obtain ⟨hp, hpairs⟩ := forall_mem_cons.mp hpairs
    rw [forall_mem_cons, foldlM_cons]
    by_cases hle : p.2 ≤ p.1 + 1
    · obtain ⟨file', hfile', hwrite⟩ := writePart_eq mimeType boundary buf hfile
        (show p.1 + 1 < 2 ^ 64 by omega) hle
      obtain ⟨hok, hpanic⟩ := ih hpairs (buf ++ writtenPart mimeType boundary content p) hfile'
      rw [hwrite, ok_bind, flatMap_cons, ← append_assoc]
      exact ⟨fun h => hok h.2, fun h => hpanic fun hrest => h ⟨hle, hrest⟩⟩
    · rw [writePart_panics (by omega) (by omega), panic_bind]
      exact ⟨fun h => absurd h.1 hle, fun _ => rfl⟩

theorem satisfiable_eq (h : ∀ r ∈ ranges, 1 ≤ r.length ∧ r.start + r.length ≤ content.len) :
    satisfiable content.len (ranges.map fun r => (r.start, r.start + r.length - 1)) =
      .ok (ranges.map fun r => (r.start, r.served)) := by
  induction ranges with
  | nil => rfl
  | cons r _ ih =>
    obtain ⟨⟨hone, hle⟩, hranges⟩ := forall_mem_cons.mp h
    have hadjust : r.start + min (r.start + r.length - 1 - r.start) (maxLen - 1) = r.served := by
      rw [HttpRange.served]
      omega
    rw [map_cons, satisfiable, if_neg (by omega),
      adjustEnd_eq content.len_lt (by omega) (by omega), hadjust, ok_bind, ih hranges]
    rfl

theorem getResponse_multiRange (hs : Serves A path content)
    (hpath : requestPath request = path)
    (hhd : rangeHeader request = some header)
    (hparse : A.httpRange.parse header content.len = some ranges) (hn : 2 ≤ ranges.length) :
    getResponse A request =
      multiRange (rangeResponse A path content) (.opened content) content.len
        (A.mimeType (content.bytes.take (min content.len 8192)) path) (randomBoundary A.random)
        (ranges.map fun r => (r.start, r.start + r.length - 1)) := by
  rw [getResponse_eq request hs hpath, hhd]
  simp only [hparse, specRanges_eq content.len_lt (A.httpRange.within hparse), ok_bind]
  match ranges, hn with
  | _ :: _ :: _, _ => rfl

/-! ### Telling the parts apart -/

theorem takeWhile_toString (n : Nat) (rest : List UInt8) :
    (bytes (toString n) ++ 45 :: rest).takeWhile (· != 45) = bytes (toString n) := by
  have hdigit : ∀ b ∈ bytes (toString n), (b != 45) = true := by
    intro b hb
    have hlow := (toNat_of_mem_decimal (bytes_toString n ▸ hb)).1
    refine bne_iff_ne.mpr ?_
    rintro rfl
    exact absurd hlow (by decide)
  rw [takeWhile_append_of_pos hdigit, takeWhile_cons_of_neg (by simp), append_nil]

theorem start_eq_of_part {start start' last last' len : Nat} {data data' rest rest' : List UInt8}
    (h : part mimeType boundary (contentRange start last len) data ++ rest =
      part mimeType boundary (contentRange start' last' len) data' ++ rest') : start = start' := by
  have hyphen : bytes "-" = [45] := by decide
  simp only [part, contentRange, bytes_append, append_assoc, append_cancel_left_eq,
    hyphen, cons_append] at h
  have hread := congrArg (takeWhile (· != 45)) h
  rw [takeWhile_toString, takeWhile_toString] at hread
  have htext := congrArg String.toNat? (bytes_injective hread)
  rw [Nat.toString_eq_repr, Nat.toString_eq_repr, Nat.toNat?_repr, Nat.toNat?_repr] at htext
  exact Option.some.inj htext

theorem writtenParts_eq_iff {pairs : List (Nat × Nat)} {tail tail' : List UInt8}
    (hpairs : ∀ p ∈ pairs, p.1 ≤ p.2) :
    pairs.flatMap (writtenPart mimeType boundary content) ++ tail =
        pairs.flatMap (fun p => part mimeType boundary (contentRange p.1 p.2 content.len)
          ((content.bytes.drop p.1).take (p.2 + 1 - p.1))) ++ tail' ↔
      (∀ p ∈ pairs, p.1 = p.2) ∧ tail = tail' := by
  induction pairs with
  | nil => simp
  | cons p pairs ih =>
    obtain ⟨hp, hpairs⟩ := forall_mem_cons.mp hpairs
    rw [forall_mem_cons, flatMap_cons, flatMap_cons, append_assoc,
      append_assoc, and_assoc, ← ih hpairs]
    constructor
    · intro h
      have heq : p.2 = p.1 := start_eq_of_part h
      rw [writtenPart, heq, append_cancel_left_eq] at h
      exact ⟨heq.symm, h⟩
    · rintro ⟨heq, h⟩
      rw [h, writtenPart, heq]

theorem forall₂_singleRange (h : ∀ r ∈ ranges, 1 ≤ r.length ∧ r.start + r.length ≤ content.len)
    (resp : Response) {singles : List Response} :
    List.Forall₂ (fun r single => singleRange resp (.opened content) content.len r.start
        (r.start + r.length - 1) = .ok single) ranges singles ↔
      singles = ranges.map fun r => partialResponse resp content r.start r.served := by
  induction ranges generalizing singles with
  | nil => simp
  | cons _ _ ih =>
    obtain ⟨⟨hone, hle⟩, hranges⟩ := forall_mem_cons.mp h
    simp only [forall₂_cons_left_iff, singleRange_eq resp hone hle, ok.injEq, ih hranges, map_cons]
    constructor
    · rintro ⟨_, _, rfl, rfl, rfl⟩
      rfl
    · rintro rfl
      exact ⟨_, _, rfl, rfl, rfl⟩

theorem get_multiRange (request : HttpRequest) (ranges : List HttpRange)
    (hs : Serves A path content) (hpath : requestPath request = path)
    (hhd : rangeHeader request = some header)
    (hparse : A.httpRange.parse header content.len = some ranges) (hn : 2 ≤ ranges.length) :
    ((∀ r ∈ ranges, r.served ≤ r.start + 1) → ∃ resp, get A request = .ok resp ∧
      resp.body = (ranges.map fun r => (r.start, r.served)).flatMap (writtenPart
        (A.mimeType (content.bytes.take (min content.len 8192)) path) (randomBoundary A.random)
        content) ++ bytes ("\r\n--" ++ randomBoundary A.random ++ "\r\n")) ∧
    (¬(∀ r ∈ ranges, r.served ≤ r.start + 1) →
      get A request = .panic "attempt to subtract with overflow") := by
  have hin := A.httpRange.within hparse
  have hpairs : ∀ p ∈ ranges.map (fun r => (r.start, r.served)), p.1 ≤ p.2 ∧ p.2 + 1 < 2 ^ 64 := by
    intro p hp
    obtain ⟨r, hr, rfl⟩ := mem_map.mp hp
    obtain ⟨hone, hle⟩ := hin r hr
    have hserved := served_lt hone hle
    have hlen := content.len_lt
    simp only
    omega
  obtain ⟨hok, hpanic⟩ := foldlM_writePart
    (A.mimeType (content.bytes.take (min content.len 8192)) path) (randomBoundary A.random)
    hpairs [] (show (File.opened content).content = content from rfl)
  have hans := getResponse_multiRange hs hpath hhd hparse hn
  rw [multiRange, satisfiable_eq hin, ok_bind] at hans
  simp only at hans
  simp only [forall_mem_map, nil_append] at hok hpanic
  constructor
  · intro h
    obtain ⟨file', hfold⟩ := hok h
    rw [hfold, ok_bind] at hans
    exact ⟨_, get_of_ok hans, rfl⟩
  · intro h
    rw [hpanic h, panic_bind] at hans
    rw [get, hans]

/-- **Several ranges and single ranges**: the parts of the answer are what the single ranges are
answered with exactly if every range has one byte, and what follows the last delimiter is a line
break, so that it is never the closing one. -/
theorem multiRange_agrees_iff (request : HttpRequest) (ranges : List HttpRange)
    (hs : Serves A path content) (hpath : requestPath request = path)
    (hheader : rangeHeader request = some header)
    (hparse : A.httpRange.parse header content.len = some ranges) (hn : 2 ≤ ranges.length) :
    (∀ tail, ¬Agrees A path content request ranges (bytes "--" ++ tail)) ∧
      ∀ close, Agrees A path content request ranges close ↔
        (∀ r ∈ ranges, r.length = 1) ∧ close = bytes "\r\n" := by
  have hin := A.httpRange.within hparse
  obtain ⟨hok, hpanic⟩ := get_multiRange request ranges hs hpath hheader hparse hn
  have hpairs : ∀ p ∈ ranges.map (fun r => (r.start, r.served)), p.1 ≤ p.2 := by
    intro p hp
    obtain ⟨r, hr, rfl⟩ := mem_map.mp hp
    exact (served_lt (hin r hr).1 (hin r hr).2).1
  have hlen : (∀ p ∈ ranges.map (fun r => (r.start, r.served)), p.1 = p.2) ↔
      ∀ r ∈ ranges, r.length = 1 := by
    rw [forall_mem_map]
    refine forall₂_congr fun r hr => ?_
    have hone := (hin r hr).1
    have hmax : maxLen = 1024000 := rfl
    simp only [HttpRange.served]
    omega
  have hsingles : ∀ singles, Forall₂ (fun r single => singleRange
      (rangeResponse A path content) (.opened content) content.len r.start
        (r.start + r.length - 1) = .ok single) ranges singles →
      singles.flatMap (partOf (A.mimeType (content.bytes.take (min content.len 8192)) path)
        (randomBoundary A.random)) = (ranges.map fun r => (r.start, r.served)).flatMap fun p =>
          part (A.mimeType (content.bytes.take (min content.len 8192)) path)
            (randomBoundary A.random) (contentRange p.1 p.2 content.len)
            ((content.bytes.drop p.1).take (p.2 + 1 - p.1)) := by
    intro singles h
    rw [(forall₂_singleRange hin _).mp h, flatMap_map, flatMap_map]
    refine flatMap_congr fun r _ => ?_
    rw [partOf, partialResponse_contentRange]
    rfl
  have hiff : ∀ close, Agrees A path content request ranges close ↔
      (∀ r ∈ ranges, r.length = 1) ∧ close = bytes "\r\n" := by
    intro close
    rw [← hlen]
    constructor
    · rintro ⟨resp, singles, hget, hforall, hbody⟩
      by_cases hle : ∀ r ∈ ranges, r.served ≤ r.start + 1
      · obtain ⟨resp', hget', hbody'⟩ := hok hle
        obtain rfl : resp' = resp := ok.inj (hget'.symm.trans hget)
        rw [hbody', hsingles singles hforall, append_assoc, writtenParts_eq_iff hpairs,
          bytes_append, append_cancel_left_eq] at hbody
        exact ⟨hbody.1, hbody.2.symm⟩
      · rw [hpanic hle] at hget
        cases hget
    · rintro ⟨heq, rfl⟩
      have hle : ∀ r ∈ ranges, r.served ≤ r.start + 1 := by simp_all
      obtain ⟨resp, hget, hbody⟩ := hok hle
      refine ⟨resp, _, hget, (forall₂_singleRange hin _).mpr rfl, ?_⟩
      rw [hbody, hsingles _ ((forall₂_singleRange hin _).mpr rfl), append_assoc,
        writtenParts_eq_iff hpairs, bytes_append]
      exact ⟨heq, rfl⟩
  refine ⟨?_, hiff⟩
  intro tail h
  have hclose : bytes "--" ++ tail = bytes "\r\n" := ((hiff _).mp h).2
  have hdash : bytes "--" = [45, 45] := by decide
  have hbreak : bytes "\r\n" = [13, 10] := by decide
  rw [hdash, hbreak] at hclose
  simp at hclose

/-- Two ranges of one byte: the parts are right, the end is not. -/
theorem sample_multiRange_agrees :
    Agrees Sample.setup "f" Sample.content (withRange (Sample.request "GET") Sample.twoBytes)
        [⟨0, 1⟩, ⟨4, 1⟩] (bytes "\r\n") ∧
      ∀ tail, ¬Agrees Sample.setup "f" Sample.content
        (withRange (Sample.request "GET") Sample.twoBytes) [⟨0, 1⟩, ⟨4, 1⟩]
        (bytes "--" ++ tail) := by
  obtain ⟨hnever, hiff⟩ :=
    multiRange_agrees_iff (withRange (Sample.request "GET") Sample.twoBytes) [⟨0, 1⟩, ⟨4, 1⟩]
      (show Serves Sample.setup "f" Sample.content from ⟨rfl, rfl, rfl⟩) rfl rfl rfl (by decide)
  exact ⟨(hiff _).mpr ⟨by decide, rfl⟩, hnever⟩

/-- A request for two ranges of three bytes ends in a panic, and after two ranges of one byte the
delimiter is an ordinary one. -/
theorem multiRange_disagrees :
    get Sample.setup (withRange (Sample.request "GET") Sample.twoRanges) =
        .panic "attempt to subtract with overflow" ∧
      ∃ resp, get Sample.setup (withRange (Sample.request "GET") Sample.twoBytes) = .ok resp ∧
        resp.body =
          part "text/plain" (randomBoundary Sample.setup.random) (contentRange 0 0 7) [10] ++
          part "text/plain" (randomBoundary Sample.setup.random) (contentRange 4 4 7) [14] ++
          bytes ("\r\n--" ++ randomBoundary Sample.setup.random ++ "\r\n") := by
  have hs : Serves Sample.setup "f" Sample.content := ⟨rfl, rfl, rfl⟩
  obtain ⟨hok, -⟩ := get_multiRange (withRange (Sample.request "GET") Sample.twoBytes)
    [⟨0, 1⟩, ⟨4, 1⟩] hs rfl rfl rfl (by decide)
  obtain ⟨resp, hget, hbody⟩ := hok (by decide)
  refine ⟨rfl, resp, hget, hbody.trans ?_⟩
  rw [map_cons, map_cons, map_nil, flatMap_cons, flatMap_cons, flatMap_nil, append_nil]
  rfl

end Multipart

end Tauri.AssetProtocol
