import Tauri.Rust.FileSystem
import Tauri.Rust.Outcome

/-!
# The built-in development server

Without a `devUrl` the CLI serves the frontend directory itself. `start` looks for a port: the one
that is asked for, or the first from 1430 on. The loop adds one to a `u16` without a bound, so
**it only comes to an end by itself where there is a free port** (`start_returns_iff`).

`handler` answers a request with one of four files. The first three reads compare the canonical
path with the directory; **the last one, of `index.html`, does not**, and follows a link out of the
directory (`handler_serves_dir_iff`).
-/

namespace Tauri.Cli.DevServer

open Rust List Option

variable {Ip : Type}

/-! ### The port -/

section Port

variable [ToString Ip]

/-- The ports that a listener can be bound to, and the listeners that can be made non-blocking. -/
structure Sockets (Ip : Type) where
  bind : Ip → UInt16 → Bool
  setNonblocking : Ip → UInt16 → Bool

inductive StartError where
  | io
  | message (text : String)
  deriving DecidableEq

/-- The loop of `start`. Whether the addition panics is up to the profile of the build
(`checks`); without the check it wraps. -/
def bindLoop (sockets : Sockets Ip) (checks : Bool) (ip : Ip) (autoPort : Bool) :
    Nat → UInt16 → Outcome StartError (Ip × UInt16)
  | 0, _ => .outOfFuel
  | fuel + 1, port =>
    if sockets.bind ip port then
      if sockets.setNonblocking ip port then .ok (ip, port) else .err .io
    else if !autoPort then .err (.message s!"Couldn't bind to {port} on {ip}")
    else if checks ∧ port.toNat + 1 = 2 ^ 16 then .panic "attempt to add with overflow"
    else bindLoop sockets checks ip autoPort fuel (port + 1)

/-- `start`, up to the address. The thread that it spawns has no part in the result. -/
def start (sockets : Sockets Ip) (checks : Bool) (fs : FileSystem) (cwd : Location)
    (dir : Path × Bool) (ip : Ip) (port : Option UInt16) (fuel : Nat) :
    Outcome StartError (Ip × UInt16) :=
  match fs.canonicalize cwd dir.1 dir.2 with
  | none => .err .io
  | some _ => bindLoop sockets checks ip port.isNone fuel (port.getD 1430)

/-- What `start` is to give: the port that is asked for, or the smallest free one from 1430 on,
or an error. -/
def StartResult (sockets : Sockets Ip) (ip : Ip) (port : Option UInt16) :
    Outcome StartError (Ip × UInt16) → Prop
  | .ok address => address.1 = ip ∧ sockets.bind ip address.2 = true ∧
      match port with
      | some p => address.2 = p
      | none => 1430 ≤ address.2.toNat ∧
          ∀ q : UInt16, 1430 ≤ q.toNat → sockets.bind ip q = true → address.2.toNat ≤ q.toNat
  | .err _ => True
  | _ => False

variable {sockets : Sockets Ip} {ip : Ip} {p : UInt16}

theorem toNat_succ {port : UInt16} (h : port.toNat + 1 < 2 ^ 16) :
    (port + 1).toNat = port.toNat + 1 := by
  rw [UInt16.toNat_add, UInt16.toNat_one, Nat.mod_eq_of_lt h]

/-- From a port below the first free one, the loop comes to the first free one. -/
theorem bindLoop_of_first (checks : Bool) (port : UInt16) (hp : sockets.bind ip p = true) (n : Nat)
    (hn : port.toNat + n = p.toNat)
    (hmin : ∀ q : UInt16, port.toNat ≤ q.toNat → sockets.bind ip q = true → p.toNat ≤ q.toNat) :
    bindLoop sockets checks ip true (n + 1) port = .ok (ip, p) ∨
      bindLoop sockets checks ip true (n + 1) port = .err .io := by
  induction n generalizing port with
  | zero =>
    obtain rfl : port = p := UInt16.toNat_inj.mp (by omega)
    rw [bindLoop, if_pos hp]
    exact ite_eq_or_eq _ _ _
  | succ n ih =>
    have hlt := p.toNat_lt
    have hbusy : ¬ sockets.bind ip port = true := fun h => by
      have := hmin port le_rfl h
      omega
    have hsucc : (port + 1).toNat = port.toNat + 1 := toNat_succ (by omega)
    rw [bindLoop, if_neg hbusy, if_neg (by simp), if_neg (by omega)]
    exact ih (port + 1) (by omega) fun q hq => hmin q (by omega)

/-- Where no port from this one on is free, a build with the checks panics. -/
theorem bindLoop_not_returns (port : UInt16) (fuel : Nat)
    (hbusy : ∀ q : UInt16, port.toNat ≤ q.toNat → sockets.bind ip q = false) :
    bindLoop sockets true ip true fuel port = .outOfFuel ∨
      bindLoop sockets true ip true fuel port = .panic "attempt to add with overflow" := by
  induction fuel generalizing port with
  | zero => exact .inl rfl
  | succ fuel ih =>
    rw [bindLoop, if_neg (by simp [hbusy port le_rfl]), if_neg (by simp)]
    split_ifs with hlast
    · exact .inr rfl
    · have hlt := port.toNat_lt
      have hsucc : (port + 1).toNat = port.toNat + 1 := toNat_succ (by grind)
      exact ih (port + 1) fun q hq => hbusy q (by omega)

theorem start_not_returns {fs : FileSystem} {cwd : Location} {dir : Path × Bool}
    (hdir : fs.canonicalize cwd dir.1 dir.2 ≠ none)
    (hbusy : ∀ q : UInt16, 1430 ≤ q.toNat → sockets.bind ip q = false) (fuel : Nat) :
    ¬ StartResult sockets ip none (start sockets true fs cwd dir ip none fuel) := by
  obtain ⟨d, hd⟩ := ne_none_iff_exists'.mp hdir
  simp only [start, hd]
  rcases bindLoop_not_returns 1430 fuel hbusy with hloop | hloop <;> simp [StartResult, hloop]

/-- In every build `start` returns what it is to give, if and only if a port is asked for, the
directory does not exist, or some port from 1430 on is free. -/
theorem start_returns_iff (sockets : Sockets Ip) (fs : FileSystem) (cwd : Location)
    (dir : Path × Bool) (ip : Ip) (port : Option UInt16) :
    (∀ checks, ∃ fuel,
        StartResult sockets ip port (start sockets checks fs cwd dir ip port fuel)) ↔
      port ≠ none ∨ fs.canonicalize cwd dir.1 dir.2 = none ∨
        ∃ q : UInt16, 1430 ≤ q.toNat ∧ sockets.bind ip q = true := by
  constructor
  · intro h
    by_contra! hnot
    obtain ⟨rfl, hdir, hbusy⟩ := hnot
    obtain ⟨fuel, hres⟩ := h true
    exact start_not_returns hdir (fun q hq => by simpa using hbusy q hq) fuel hres
  · intro h checks
    rcases hdir : fs.canonicalize cwd dir.1 dir.2 with _ | d
    · exact ⟨0, by simp [start, hdir, StartResult]⟩
    simp only [start, hdir]
    rcases port with _ | port
    · -- the first free port from 1430 on
      have hfree : ∃ q : UInt16, 1430 ≤ q.toNat ∧ sockets.bind ip q = true := by simpa [hdir] using h
      obtain ⟨p, ⟨hle, hp⟩, hmin⟩ := (measure UInt16.toNat).wf.has_min _ hfree
      have hfirst (q : UInt16) (hq : 1430 ≤ q.toNat) (hb : sockets.bind ip q = true) :
          p.toNat ≤ q.toNat := not_lt.mp (hmin q ⟨hq, hb⟩)
      refine ⟨p.toNat - 1430 + 1, ?_⟩
      rcases bindLoop_of_first checks 1430 hp _ (Nat.add_sub_of_le hle) hfirst with hloop | hloop
      · exact hloop ▸ ⟨rfl, hp, hle, hfirst⟩
      · exact hloop ▸ trivial
    · refine ⟨1, ?_⟩
      simp only [bindLoop, Option.isNone_some, Option.getD_some]
      split_ifs with hb <;> simp_all [StartResult]

namespace Sample

/-- A file system with nothing in it. -/
def bare : FileSystem := ⟨fun loc => if loc = [] then some .dir else none, rfl, 40⟩

end Sample

theorem sample_no_port_not_returns :
    ¬ ∀ checks, ∃ fuel, StartResult ⟨fun _ _ => false, fun _ _ => true⟩ "127.0.0.1" none
      (start ⟨fun _ _ => false, fun _ _ => true⟩ checks Sample.bare [] (.root, false) "127.0.0.1"
        none fuel) := by
  intro h
  obtain ⟨fuel, hres⟩ := h true
  exact start_not_returns (by decide) (fun _ _ => rfl) fuel hres

end Port

/-! ### The files -/

/-- A component of a text. What is no name is skipped. -/
def component (text : List Char) : Option Component :=
  if text = ['.', '.'] then some .parentDir
  else
    let text := text.map OsChar.char
    if h : text ≠ [] ∧ .char '/' ∉ text ∧ text ≠ [.char '.'] ∧ text ≠ [.char '.', .char '.'] then
      some (.normal ⟨text, h.1, h.2.1, h.2.2.1, h.2.2.2⟩)
    else none

/-- `Path::join` with a text, and whether there is a separator behind the last component. -/
def joinText (path : Path) (text : List Char) : Path × Bool :=
  let segments := text.splitOn '/'
  let components := segments.filterMap component
  (if text.head? = some '/' then ⟨.rootDir, components⟩ else path.join components,
    (segments.getLast?.bind component).isNone)

/-- `Path::starts_with`. -/
def startsWith (path base : Path) : Bool :=
  path.anchor = base.anchor ∧ base.components <+: path.components

/-- The files of the machine, with the contents of those that can be read. -/
structure Disk where
  fs : FileSystem
  content : Location → Option (List UInt8)

/-- `std::fs::read`, with the location of the file that is opened. All paths are absolute, so that
the current directory plays no part. -/
def Disk.read (disk : Disk) (path : Path × Bool) : Option (Location × List UInt8) :=
  match disk.fs.lookup true [] path.1 path.2 with
  | some (.found loc) =>
    if disk.fs.node loc = some .file then (disk.content loc).map (loc, ·) else none
  | _ => none

/-- `fs_read_scoped`. -/
def fsReadScoped (disk : Disk) (path : Path × Bool) (scope : Path) :
    Option (Location × List UInt8) := do
  let path ← disk.fs.canonicalize [] path.1 path.2
  if startsWith path scope then disk.read (path, false) else none

/-- `ServerState`, with the directory as `start` has canonicalised it. -/
structure ServerState (Ip : Type) where
  dir : Location
  address : Ip × UInt16

/-- `MimeType::parse_with_fallback` and `inject_address`. -/
structure Html (Ip : Type) where
  mimeType : List UInt8 → List Char → String
  injectAddress : List UInt8 → Ip × UInt16 → List UInt8

structure Response where
  status : Nat
  contentType : String
  body : List UInt8
  deriving DecidableEq

/-- The path of a request, without the first slash. -/
def stripped (uri : List Char) : List Char :=
  if uri = ['/'] then uri else if uri.head? = some '/' then uri.tail else uri

/-- The paths that `fs_read_scoped` is called with. -/
def scopedPaths (state : ServerState Ip) (uri : List Char) : List (Path × Bool) :=
  ["", ".html", "/index.html"].map fun suffix =>
    joinText (.ofLocation state.dir) (stripped uri ++ suffix.toList)

/-- The path of the last read. -/
def fallbackPath (state : ServerState Ip) : Path × Bool :=
  joinText (.ofLocation state.dir) "index.html".toList

/-- The four reads of `handler`. -/
def readFrontend (disk : Disk) (state : ServerState Ip) (uri : List Char) :
    Option (Location × List UInt8) :=
  ((scopedPaths state uri).findSome? fun path =>
    fsReadScoped disk path (.ofLocation state.dir)).or (disk.read (fallbackPath state))

/-- The answer with the bytes of a file. -/
def page (html : Html Ip) (state : ServerState Ip) (uri : List Char) (bytes : List UInt8) :
    Response :=
  let mimeType := html.mimeType bytes (stripped uri)
  ⟨200, mimeType, if mimeType = "text/html" then html.injectAddress bytes state.address else bytes⟩

/-- `handler`, with the location of the file that was read. -/
def handler (html : Html Ip) (disk : Disk) (state : ServerState Ip) (uri : List Char) :
    Response × Option Location :=
  match readFrontend disk state uri with
  | some (loc, bytes) => (page html state uri bytes, some loc)
  | none => (⟨404, "text/plain", []⟩, none)

/-- The location of a file that can be read at a path. -/
def Disk.Opens (disk : Disk) (path : Path × Bool) (loc : Location) : Prop :=
  disk.fs.lookup true [] path.1 path.2 = some (.found loc) ∧ disk.fs.node loc = some .file ∧
    disk.content loc ≠ none

variable {disk : Disk} {path : Path × Bool} {loc : Location} {bytes : List UInt8}

theorem Disk.read_eq_some : disk.read path = some (loc, bytes) ↔
    disk.Opens path loc ∧ disk.content loc = some bytes := by
  rw [Disk.read, Disk.Opens]
  rcases disk.fs.lookup true [] path.1 path.2 with _ | loc' | loc'
  · simp
  · simp only [ite_none_right_eq_some, map_eq_some_iff, Prod.mk.injEq]
    constructor
    · rintro ⟨hnode, _, hbytes, rfl, rfl⟩
      exact ⟨⟨rfl, hnode, by simp [hbytes]⟩, hbytes⟩
    · rintro ⟨⟨hloc, hnode, -⟩, hbytes⟩
      cases hloc
      exact ⟨hnode, bytes, hbytes, rfl, rfl⟩
  · simp

theorem startsWith_ofLocation (loc dir : Location) :
    startsWith (.ofLocation loc) (.ofLocation dir) = true ↔ dir <+: loc := by
  have hinj : Function.Injective Component.normal := fun _ _ => Component.normal.inj
  simp [startsWith, Path.ofLocation, prefix_map_iff_of_injective hinj]

open FileSystem

theorem fsReadScoped_eq_some {dir : Location} :
    fsReadScoped disk path (.ofLocation dir) = some (loc, bytes) ↔
      disk.Opens path loc ∧ dir <+: loc ∧ disk.content loc = some bytes := by
  -- a canonical path is resolved to its own location
  have hread (loc' : Location) (h : disk.fs.lookup true [] path.1 path.2 = some (.found loc')) :
      disk.read (.ofLocation loc', false) = disk.read path := by
    have hcanon := canonical_of_lookup (isDir_nil disk.fs) h
    rw [Disk.read, Disk.read, h, lookup_false, resolve_ofLocation hcanon]
  constructor
  · intro h
    obtain ⟨q, hq, h⟩ := bind_eq_some_iff.mp h
    obtain ⟨loc', hlookup, rfl⟩ := canonicalize_eq_some.mp hq
    rw [hread loc' hlookup, ite_none_right_eq_some, Disk.read_eq_some] at h
    obtain ⟨hstart, hopens, hbytes⟩ := h
    obtain rfl : loc' = loc := by simpa [hlookup] using hopens.1
    exact ⟨hopens, (startsWith_ofLocation loc' dir).mp hstart, hbytes⟩
  · rintro ⟨hopens, hdir, hbytes⟩
    refine bind_eq_some_iff.mpr
      ⟨_, canonicalize_eq_some.mpr ⟨loc, hopens.1, rfl⟩, ?_⟩
    rw [if_pos ((startsWith_ofLocation loc dir).mpr hdir), hread loc hopens.1]
    exact Disk.read_eq_some.mpr ⟨hopens, hbytes⟩

/-- What is served is a file in the directory. -/
def Served (html : Html Ip) (disk : Disk) (state : ServerState Ip) (uri : List Char)
    (answer : Response × Option Location) : Prop :=
  ∀ loc, answer.2 = some loc → state.dir <+: loc ∧
    ∃ bytes, disk.content loc = some bytes ∧ answer.1 = page html state uri bytes

theorem served_iff {html : Html Ip} {state : ServerState Ip} {uri : List Char}
    (h : ∀ loc bytes, readFrontend disk state uri = some (loc, bytes) →
      disk.content loc = some bytes) :
    Served html disk state uri (handler html disk state uri) ↔
      ∀ loc bytes, readFrontend disk state uri = some (loc, bytes) → state.dir <+: loc := by
  rw [Served, handler]
  rcases hread : readFrontend disk state uri with _ | ⟨loc, bytes⟩
  · simp
  · have hbytes := h loc bytes hread
    simp [hbytes]

/-- A request is served from the directory, if and only if one of the first three paths leads to a
file in it, or `index.html` does not lead to a file outside of it. -/
theorem handler_serves_dir_iff (html : Html Ip) (disk : Disk) (state : ServerState Ip)
    (uri : List Char) : Served html disk state uri (handler html disk state uri) ↔
      (∃ path ∈ scopedPaths state uri, ∃ loc, disk.Opens path loc ∧ state.dir <+: loc) ∨
        ∀ loc, disk.Opens (fallbackPath state) loc → state.dir <+: loc := by
  rcases hscoped : (scopedPaths state uri).findSome? fun path =>
      fsReadScoped disk path (.ofLocation state.dir) with _ | ⟨loc, bytes⟩
  · have hnone : ¬ ∃ path ∈ scopedPaths state uri, ∃ loc, disk.Opens path loc ∧ state.dir <+: loc := by
      rintro ⟨path, hmem, loc, hopens, hdir⟩
      obtain ⟨bytes, hbytes⟩ := Option.ne_none_iff_exists'.mp hopens.2.2
      have hread := fsReadScoped_eq_some.mpr ⟨hopens, hdir, hbytes⟩
      rw [findSome?_eq_none_iff] at hscoped
      rw [hscoped path hmem] at hread
      cases hread
    have hread : readFrontend disk state uri = disk.read (fallbackPath state) := by
      simp [readFrontend, hscoped]
    rw [or_iff_right hnone, served_iff (by simp +contextual [hread, Disk.read_eq_some])]
    simp only [hread, Disk.read_eq_some]
    constructor
    · intro h loc hopens
      obtain ⟨bytes, hbytes⟩ := Option.ne_none_iff_exists'.mp hopens.2.2
      exact h loc bytes ⟨hopens, hbytes⟩
    · exact fun h loc bytes hopens => h loc hopens.1
  · obtain ⟨path, hmem, hread⟩ := exists_of_findSome?_eq_some hscoped
    obtain ⟨hopens, hdir, hbytes⟩ := fsReadScoped_eq_some.mp hread
    have hread : readFrontend disk state uri = some (loc, bytes) := by simp [readFrontend, hscoped]
    refine iff_of_true ?_ (.inl ⟨path, hmem, loc, hopens, hdir⟩)
    rw [served_iff (by grind)]
    grind

namespace Sample

def dist : Name := ⟨"dist".toList.map .char, by decide, by decide, by decide, by decide⟩

def index : Name := ⟨"index.html".toList.map .char, by decide, by decide, by decide, by decide⟩

def secret : Name := ⟨"secret".toList.map .char, by decide, by decide, by decide, by decide⟩

/-- The directory `/dist`, in which `index.html` is a link to `/secret`. -/
def linked : Disk where
  fs :=
    { node := fun loc =>
        if loc = [] ∨ loc = [dist] then some .dir
        else if loc = [secret] then some .file
        else if loc = [dist, index] then some (.symlink (.ofLocation [secret]))
        else none
      root := rfl
      maxLinks := 40 }
  content loc := if loc = [secret] then some [42] else none

end Sample

/-- For any page the file outside of the directory is served. -/
theorem sample_link_served :
    handler ⟨fun _ _ => "text/plain", fun bytes _ => bytes⟩ Sample.linked
        ⟨[Sample.dist], ("127.0.0.1", 1430)⟩ "/a".toList =
      (⟨200, "text/plain", [42]⟩, some [Sample.secret]) ∧
    ¬ [Sample.dist] <+: [Sample.secret] := by
  constructor <;> decide

end Tauri.Cli.DevServer
