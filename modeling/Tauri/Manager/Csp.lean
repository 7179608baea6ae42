import Tauri.Rust.Map
import Tauri.Rust.Search
import Tauri.Rust.Str

/-!
# Sources of a Content-Security-Policy

A directive of the policy has a list of sources, or a text with the sources between spaces. Before a
page is served, the tokens that the build has put into it are replaced by random numbers, and the
directive gets the numbers and the hashes of the page as sources.

**A source is looked up in a text as a part of it**, with a space behind it or in front of it. A
single source has no space, so the text `'self'` does not contain `'self'`; and a source that begins
or ends as another one does is found where only the other one stands
(`inline_interchangeable_iff`).
-/

namespace Tauri.Csp

open Rust List

/-- `CspDirectiveSources`. -/
inductive CspDirectiveSources where
  | inline (s : String)
  | list (l : List String)
  deriving DecidableEq, Repr

namespace CspDirectiveSources

instance : Inhabited CspDirectiveSources := ⟨list []⟩

/-- `From<CspDirectiveSources> for Vec<String>`. -/
def toVec : CspDirectiveSources → List String
  | inline s => split ' ' s
  | list l => l

/-- `CspDirectiveSources::contains`. -/
def contains (source : String) : CspDirectiveSources → Bool
  | inline s => Rust.contains (source ++ " ") s || Rust.contains (" " ++ source) s
  | list l => l.contains source

/-- `CspDirectiveSources::push`. -/
def push (source : String) : CspDirectiveSources → CspDirectiveSources
  | inline s => inline (s ++ " " ++ source)
  | list l => list (l ++ [source])

/-- `CspDirectiveSources::extend`. -/
def extend (sources : List String) (directive : CspDirectiveSources) : CspDirectiveSources :=
  sources.foldl (fun directive source => directive.push source) directive

end CspDirectiveSources

/-- A policy, by its directives. -/
abbrev Directives := BTreeMap String CspDirectiveSources

/-! ### Texts and lists -/

/-- A change of the sources of a directive. -/
inductive Call where
  | push (source : String)
  | extend (sources : List String)

namespace Call

def sources : Call → List String
  | push source => [source]
  | extend sources => sources

def run (directive : CspDirectiveSources) : Call → CspDirectiveSources
  | push source => directive.push source
  | extend sources => directive.extend sources

def runAll (calls : List Call) (directive : CspDirectiveSources) : CspDirectiveSources :=
  calls.foldl run directive

end Call

/-- The sources that are not empty, which are those that a browser sees. -/
def nonEmpty (sources : List String) : List String := sources.filter (· ≠ "")

open CspDirectiveSources

theorem extend_list (sources l : List String) :
    (CspDirectiveSources.list l).extend sources = .list (l ++ sources) := by
  induction sources generalizing l with
  | nil => simp [extend]
  | cons source sources ih =>
    have hstep : (list l).extend (source :: sources) =
        (list (l ++ [source])).extend sources := rfl
    rw [hstep, ih]
    simp

theorem split_append_space (s source : String) :
    split ' ' (s ++ " " ++ source) = split ' ' s ++ split ' ' source := by
  have hlist : (s ++ " " ++ source).toList = s.toList ++ ' ' :: source.toList := by
    simp [String.toList_append]
  rw [split, hlist, splitOn_append_cons_self, map_append, split, split]

theorem toVec_extend_inline (sources : List String) (s : String) : ∃ s',
    (CspDirectiveSources.inline s).extend sources = .inline s' ∧
      split ' ' s' = split ' ' s ++ sources.flatMap (split ' ') := by
  induction sources generalizing s with
  | nil => exact ⟨s, rfl, by simp⟩
  | cons source _ ih =>
    obtain ⟨s', hs', hsplit⟩ := ih (s ++ " " ++ source)
    refine ⟨s', hs', ?_⟩
    rw [hsplit, split_append_space, flatMap_cons, append_assoc]

open Call

theorem runAll_list (calls : List Call) (l : List String) :
    Call.runAll calls (.list l) = .list (l ++ calls.flatMap Call.sources) := by
  induction calls generalizing l with
  | nil => simp [runAll]
  | cons call calls ih =>
    have hrun : run (.list l) call = .list (l ++ call.sources) := by
      cases call with
      | push => rfl
      | extend sources => exact extend_list sources l
    have hstep : runAll (call :: calls) (.list l) =
        runAll calls (run (.list l) call) := rfl
    rw [hstep, hrun, ih, flatMap_cons, append_assoc]

theorem toVec_runAll_inline (calls : List Call) (s : String) :
    (Call.runAll calls (.inline s)).toVec =
      split ' ' s ++ (calls.flatMap Call.sources).flatMap (split ' ') := by
  have hinline : ∃ s', runAll calls (.inline s) = .inline s' ∧
      split ' ' s' = split ' ' s ++ (calls.flatMap sources).flatMap (split ' ') := by
    induction calls generalizing s with
    | nil => exact ⟨s, rfl, by simp⟩
    | cons call calls ih =>
      obtain ⟨s₁, hs₁, hsplit₁⟩ : ∃ s₁, run (.inline s) call = .inline s₁ ∧
          split ' ' s₁ = split ' ' s ++ call.sources.flatMap (split ' ') := by
        cases call with
        | push source => exact toVec_extend_inline [source] s
        | extend sources => exact toVec_extend_inline sources s
      obtain ⟨s', hs', hsplit'⟩ := ih s₁
      have hstep : runAll (call :: calls) (.inline s) =
          runAll calls (run (.inline s) call) := rfl
      refine ⟨s', by rw [hstep, hs₁, hs'], ?_⟩
      rw [hsplit', hsplit₁, flatMap_cons, flatMap_append, append_assoc]
  obtain ⟨s', hs', hsplit⟩ := hinline
  rw [hs']
  exact hsplit

theorem not_mem_of_mem_split {c : Char} {s word : String} (h : word ∈ split c s) :
    c ∉ word.toList := by
  obtain ⟨w, hw, rfl⟩ := mem_map.mp h
  rw [String.toList_ofList]
  exact not_mem_of_mem_splitOn hw

/-- What is found in a text: a word other than the last that ends with the source, or one other than
the first that begins with it. -/
theorem contains_inline {source : String} (h : ' ' ∉ source.toList) (s : String) :
    (CspDirectiveSources.inline s).contains source = true ↔
      (∃ word ∈ (split ' ' s).dropLast, source.toList <:+ word.toList) ∨
        ∃ word ∈ (split ' ' s).tail, source.toList <+: word.toList := by
  have hbehind : (source ++ " ").toList = source.toList ++ [' '] := by simp [String.toList_append]
  have hfront : (" " ++ source).toList = ' ' :: source.toList := by simp [String.toList_append]
  simp only [CspDirectiveSources.contains, Rust.contains, Bool.or_eq_true, decide_eq_true_eq,
    hbehind, hfront, append_infix_iff h, cons_infix_iff h, split, ← map_dropLast,
    ← map_tail, mem_map, exists_exists_and_eq_and, String.toList_ofList]

theorem found_iff_space {s x : String} (h : x ∈ split ' ' s) :
    ((∃ word ∈ (split ' ' s).dropLast, x.toList <:+ word.toList) ∨
      ∃ word ∈ (split ' ' s).tail, x.toList <+: word.toList) ↔ ' ' ∈ s.toList := by
  by_cases hsp : ' ' ∈ s.toList
  · refine iff_of_true ?_ hsp
    obtain ⟨before, after, hs⟩ := append_of_mem hsp
    have hwords : split ' ' s =
        (before.splitOn ' ').map String.ofList ++ (after.splitOn ' ').map String.ofList := by
      rw [split, hs, splitOn_append_cons_self, map_append]
    have hbef : (before.splitOn ' ').map String.ofList ≠ [] := by simp [splitOn_ne_nil]
    have haft : (after.splitOn ' ').map String.ofList ≠ [] := by simp [splitOn_ne_nil]
    rw [hwords, mem_append] at h
    rw [hwords]
    rcases h with h | h <;> grind
  · rw [split_of_not_mem hsp]
    simp [hsp]

theorem nonEmpty_words_iff (sources : List String) :
    nonEmpty (sources.flatMap (split ' ')) = nonEmpty sources ↔
      ∀ source ∈ sources, ' ' ∉ source.toList := by
  constructor
  · intro heq source hmem hsp
    have hne : source ≠ "" := by
      rintro rfl
      simp at hsp
    have hword : source ∈ nonEmpty (sources.flatMap (split ' ')) := by
      rw [heq]
      exact mem_filter.mpr ⟨hmem, by simpa using hne⟩
    obtain ⟨s, -, hs⟩ := mem_flatMap.mp (mem_filter.mp hword).1
    exact not_mem_of_mem_split hs hsp
  · intro h
    have hwords : ∀ source ∈ sources, split ' ' source = [source] :=
      fun source hmem => split_of_not_mem (h source hmem)
    rw [flatMap_congr hwords, flatMap_singleton']

/-- **Texts and lists of sources are interchangeable** exactly when a source that is among several
is looked for, or one that no other begins or ends with, and when the sources that are added have
no spaces. -/
theorem inline_interchangeable_iff (s x : String) (hx : ' ' ∉ x.toList) (calls : List Call) :
    ((CspDirectiveSources.inline s).contains x =
          (CspDirectiveSources.list (split ' ' s)).contains x ∧
        nonEmpty (Call.runAll calls (.inline s)).toVec =
          nonEmpty (Call.runAll calls (.list (split ' ' s))).toVec) ↔
      (x ∈ split ' ' s → ' ' ∈ s.toList) ∧
        (x ∉ split ' ' s → (∀ word ∈ (split ' ' s).dropLast, ¬x.toList <:+ word.toList) ∧
          ∀ word ∈ (split ' ' s).tail, ¬x.toList <+: word.toList) ∧
        ∀ call ∈ calls, ∀ source ∈ call.sources, ' ' ∉ source.toList := by
  have hcalls : nonEmpty (runAll calls (.inline s)).toVec =
      nonEmpty (runAll calls (.list (split ' ' s))).toVec ↔
        ∀ call ∈ calls, ∀ source ∈ call.sources, ' ' ∉ source.toList := by
    have hlist : nonEmpty (runAll calls (.list (split ' ' s))).toVec =
        nonEmpty (split ' ' s) ++ nonEmpty (calls.flatMap sources) := by
      rw [runAll_list]
      exact filter_append ..
    have hinline : nonEmpty (runAll calls (.inline s)).toVec =
        nonEmpty (split ' ' s) ++ nonEmpty ((calls.flatMap sources).flatMap (split ' ')) := by
      rw [toVec_runAll_inline]
      exact filter_append ..
    rw [hinline, hlist, append_right_inj, nonEmpty_words_iff]
    simp only [mem_flatMap]
    exact ⟨fun h call hcall source hsrc => h source ⟨call, hcall, hsrc⟩,
      fun h source ⟨call, hcall, hsrc⟩ => h call hcall source hsrc⟩
  have hcontains : (CspDirectiveSources.inline s).contains x =
      (CspDirectiveSources.list (split ' ' s)).contains x ↔
        (x ∈ split ' ' s → ' ' ∈ s.toList) ∧
          (x ∉ split ' ' s → (∀ word ∈ (split ' ' s).dropLast, ¬x.toList <:+ word.toList) ∧
            ∀ word ∈ (split ' ' s).tail, ¬x.toList <+: word.toList) := by
    have hlist : (CspDirectiveSources.list (split ' ' s)).contains x = true ↔ x ∈ split ' ' s :=
      contains_iff_mem
    rw [Bool.eq_iff_iff, contains_inline hx, hlist]
    by_cases hmem : x ∈ split ' ' s
    · simp only [hmem, iff_true, true_imp_iff, not_true_eq_false, false_imp_iff, and_true]
      exact found_iff_space hmem
    · simp only [hmem, iff_false, false_imp_iff, not_false_eq_true, true_imp_iff, true_and, not_or,
        not_exists, not_and]
  rw [hcalls, hcontains, and_assoc]

/-- One of two sources, and three that are added. -/
theorem sample_inline_interchangeable :
    (CspDirectiveSources.inline "'self' https:").contains "'self'" =
        (CspDirectiveSources.list (split ' ' "'self' https:")).contains "'self'" ∧
      nonEmpty (Call.runAll [.push "data:", .extend ["blob:", "ipc:"]]
          (.inline "'self' https:")).toVec =
        nonEmpty (Call.runAll [.push "data:", .extend ["blob:", "ipc:"]]
          (.list (split ' ' "'self' https:"))).toVec :=
  (inline_interchangeable_iff "'self' https:" "'self'" (by decide)
    [.push "data:", .extend ["blob:", "ipc:"]]).mpr (by decide)

/-- The only source of a text is not found in it, and the beginning of one is. -/
theorem inline_not_interchangeable :
    ((CspDirectiveSources.inline "'self'").contains "'self'" = false ∧
        (CspDirectiveSources.list (split ' ' "'self'")).contains "'self'" = true) ∧
      (CspDirectiveSources.inline "'self' https://tauri.app").contains "https://tauri" = true ∧
        (CspDirectiveSources.list (split ' ' "'self' https://tauri.app")).contains
          "https://tauri" = false := by
  decide

/-! ### Nonces -/

/-- `SCRIPT_NONCE_TOKEN`. -/
def scriptNonceToken : String := "__TAURI_SCRIPT_NONCE__"

/-- `STYLE_NONCE_TOKEN`. -/
def styleNonceToken : String := "__TAURI_STYLE_NONCE__"

section Replace

variable {σ : Type} (replacement : σ → String × σ)

/-- One match in `replace_with_callback`: the text in front of it, and the replacement. -/
def replaceMatch (original pattern : String) :
    String × Nat × σ → Nat → Option (String × Nat × σ)
  | (result, lastEnd, s), start => do
    let text ← getUnchecked original lastEnd start
    let (r, s) := replacement s
    return (result ++ text ++ r, start + byteLen pattern.toList, s)

/-- `replace_with_callback`, where the callback has a state; `none` is a slice that does not begin
and end with characters. -/
def replaceWithCallback (original pattern : String) (s : σ) : Option (String × σ) := do
  let (result, lastEnd, s) ←
    (matchIndices pattern original).foldlM (replaceMatch replacement original pattern) ("", 0, s)
  let text ← getUnchecked original lastEnd (byteLen original.toList)
  return (result ++ text, s)

/-- The results of so many calls of the callback, and its state. -/
def calls : Nat → σ → List String × σ
  | 0, s => ([], s)
  | n + 1, s => ((replacement s).1 :: (calls n (replacement s).2).1, (calls n (replacement s).2).2)

end Replace

/-- A nonce is drawn and remembered. -/
def drawNonce (random : Nat → Nat) (nonces : List Nat) : String × List Nat :=
  (toString (random nonces.length), nonces ++ [random nonces.length])

def selfSource : String := "'self'"

def nonceSource (nonce : Nat) : String := "'nonce-" ++ toString nonce ++ "'"

/-- `replace_csp_nonce`, where the numbers drawn are `random`; the nonces are given back too. -/
def replaceCspNonce (random : Nat → Nat) (asset token : String) (csp : Directives)
    (directive : String) (hashes : List String) : Option (String × Directives × List Nat) := do
  let (asset, nonces) ← replaceWithCallback (drawNonce random) asset token []
  if nonces.isEmpty && hashes.isEmpty then return (asset, csp, nonces)
  else
    let sources := csp[directive]?.getD default
    let sources := if sources.contains selfSource then sources else sources.push selfSource
    return (asset, csp.insert directive ((sources.extend (nonces.map nonceSource)).extend hashes),
      nonces)

variable {ps : List (List Char)}

theorem one_le_length_of_pieces {pattern s : List Char} (h : Pieces pattern s ps) :
    1 ≤ ps.length := by
  cases h <;> simp

theorem replaceMatches_eq {σ : Type} (replacement : σ → String × σ) {pattern : String}
    (hpat : pattern.toList ≠ []) {rest : List Char} (h : Pieces pattern.toList rest ps)
    (original done : List Char) (horig : original = done ++ rest) (result : List Char) (s : σ) :
    ∃ lastEnd text result',
      (matchIndicesFrom pattern.toList 0 (byteLen done) rest).foldlM
          (replaceMatch replacement (String.ofList original) pattern)
          (String.ofList result, byteLen done, s) =
        some (String.ofList result', lastEnd, (calls replacement (ps.length - 1) s).2) ∧
      getUnchecked (String.ofList original) lastEnd (byteLen original) =
        some (String.ofList text) ∧
      result' ++ text = result ++
        weave ps ((calls replacement (ps.length - 1) s).1.map String.toList) := by
  induction h generalizing done result s with
  | @last rest hnone =>
    refine ⟨byteLen done, rest, result, ?_, ?_, ?_⟩
    · rw [matchIndicesFrom_eq_nil hpat hnone]
      rfl
    · have hslice := getUnchecked_append done rest []
      rwa [append_nil, ← horig, ← byteLen_append, ← horig] at hslice
    · simp [calls, weave]
  | @cut t rest ps hfirst hps ih =>
    let r := (replacement s).1
    obtain ⟨lastEnd, text, result', hloop, hslice, hres⟩ :=
      ih (done ++ t ++ pattern.toList) (by simp [horig]) (result ++ t ++ r.toList)
        (replacement s).2
    obtain ⟨n, hn⟩ : ∃ n, ps.length = n + 1 :=
      ⟨ps.length - 1, by have := one_le_length_of_pieces hps; omega⟩
    rw [hn, Nat.add_sub_cancel] at hloop hres
    have htext : getUnchecked (String.ofList original) (byteLen done) (byteLen done + byteLen t) =
        some (String.ofList t) := by
      have hcut := getUnchecked_append done t (pattern.toList ++ rest)
      rwa [append_assoc done t, ← append_assoc t, ← horig] at hcut
    have hmatch : replaceMatch replacement (String.ofList original) pattern
        (String.ofList result, byteLen done, s) (byteLen done + byteLen t) =
          some (String.ofList (result ++ t ++ r.toList),
            byteLen (done ++ t ++ pattern.toList), (replacement s).2) := by
      simp [replaceMatch, htext, r, String.ofList_append, String.append_assoc, Nat.add_assoc]
    refine ⟨lastEnd, text, result', ?_, hslice, ?_⟩
    · rw [matchIndicesFrom_cut hpat hfirst, foldlM_cons, hmatch, Option.bind_eq_bind,
        Option.bind_some, ← byteLen_append, ← byteLen_append, hloop]
      simp [calls, hn]
    · rw [hres]
      simp [calls, hn, weave, r]

theorem replaceWithCallback_eq {σ : Type} (replacement : σ → String × σ)
    {original pattern : String} (hpat : pattern.toList ≠ [])
    (h : Pieces pattern.toList original.toList ps) (s : σ) :
    replaceWithCallback replacement original pattern s =
      some (String.ofList (weave ps ((calls replacement (ps.length - 1) s).1.map String.toList)),
        (calls replacement (ps.length - 1) s).2) := by
  obtain ⟨lastEnd, text, result, hloop, hslice, hres⟩ :=
    replaceMatches_eq replacement hpat h original.toList [] rfl [] s
  rw [String.ofList_toList] at hloop hslice
  have hmat : (matchIndices pattern original).foldlM
      (replaceMatch replacement original pattern) ("", 0, s) =
        some (String.ofList result, lastEnd, (calls replacement (ps.length - 1) s).2) := hloop
  rw [nil_append] at hres
  rw [replaceWithCallback, hmat, ← hres, String.ofList_append]
  simp [hslice]

theorem calls_drawNonce (random : Nat → Nat) (n : Nat) (nonces : List Nat) :
    calls (drawNonce random) n nonces =
      (((List.range n).map fun i => random (nonces.length + i)).map toString,
        nonces ++ (List.range n).map fun i => random (nonces.length + i)) := by
  induction n generalizing nonces with
  | zero => simp [calls]
  | succ n ih =>
    have hshift : ∀ i, random (nonces.length + 1 + i) = random (nonces.length + (i + 1)) :=
      fun i => congrArg random (by omega)
    simp [calls, drawNonce, ih, range_succ_eq_map, hshift, Function.comp_def]

theorem length_pieces_iff {pattern s : List Char} (h : Pieces pattern s ps) :
    ps.length - 1 = 0 ↔ ¬pattern <:+: s := by
  cases h with
  | last hnone => simpa using hnone
  | @cut t rest _ _ hps =>
    have hlen := one_le_length_of_pieces hps
    refine iff_of_false (by simp only [length_cons]; omega) (not_not.mpr ?_)
    exact ⟨t, rest, rfl⟩

/-- **Nonces in the page and in the policy agree**: what stands between the occurrences of the token
is kept, the nonces are put between, and the directive gets the same nonces. -/
theorem replaceCspNonce_agrees (random : Nat → Nat) (asset token : String) (htoken : token ≠ "")
    (csp : Directives)
    (hlists : ∀ (d : String) sources, csp[d]? = some sources → ∃ l, sources = .list l)
    (directive : String) (hashes : List String) :
    ∃ pieces nonces, Pieces token.toList asset.toList pieces ∧
      nonces = (List.range (pieces.length - 1)).map random ∧
      replaceCspNonce random asset token csp directive hashes =
        some (String.ofList (weave pieces (nonces.map fun nonce => (toString nonce).toList)),
          (if Rust.contains token asset = false ∧ hashes = [] then csp
          else
            let old := (csp[directive]?.map CspDirectiveSources.toVec).getD []
            csp.insert directive (.list (old ++
              (if selfSource ∈ old then [] else [selfSource]) ++ nonces.map nonceSource ++
                hashes))),
          nonces) := by
  have hpat : token.toList ≠ [] := by simpa using htoken
  obtain ⟨pieces, hps⟩ := exists_pieces hpat asset.toList
  let nonces := (range (pieces.length - 1)).map random
  refine ⟨pieces, nonces, hps, rfl, ?_⟩
  have hreplaced : replaceWithCallback (drawNonce random) asset token [] =
      some (String.ofList (weave pieces (nonces.map fun nonce => (toString nonce).toList)),
        nonces) := by
    rw [replaceWithCallback_eq (drawNonce random) hpat hps [], calls_drawNonce]
    simp [nonces, Function.comp_def]
  have hnonces : nonces.isEmpty = true ↔ Rust.contains token asset = false := by
    rw [Rust.contains, decide_eq_false_iff_not, ← length_pieces_iff hps]
    simp [nonces]
  -- the list that is stored, or the empty one
  obtain ⟨old, hold, hvec⟩ : ∃ old, csp[directive]?.getD default = .list old ∧
      (csp[directive]?.map CspDirectiveSources.toVec).getD [] = old := by
    cases hsto : csp[directive]? with
    | none => exact ⟨[], rfl, rfl⟩
    | some sources =>
      obtain ⟨l, rfl⟩ := hlists directive sources hsto
      exact ⟨l, rfl, rfl⟩
  rw [replaceCspNonce, hreplaced, hold, hvec]
  by_cases hnil : Rust.contains token asset = false ∧ hashes = []
  · have hemp : nonces = [] := isEmpty_iff.mp (hnonces.mpr hnil.1)
    simp [hemp, hnil]
  · have hany : (nonces.isEmpty && hashes.isEmpty) = false := by simp_all
    have hpush : (if (CspDirectiveSources.list old).contains selfSource then
        CspDirectiveSources.list old else (CspDirectiveSources.list old).push selfSource) =
          .list (old ++ if selfSource ∈ old then [] else [selfSource]) := by
      by_cases hself : selfSource ∈ old
      · simp [CspDirectiveSources.contains, hself]
      · simp [CspDirectiveSources.contains, CspDirectiveSources.push, hself]
    simp only [Option.bind_eq_bind, Option.bind_some, hany, Bool.false_eq_true, if_false,
      if_neg hnil, hpush, extend_list, pure]

/-- Two tokens in a page with a hash. -/
theorem sample_nonces_agree :
    ∃ pieces nonces, Pieces scriptNonceToken.toList
        "a __TAURI_SCRIPT_NONCE__ b __TAURI_SCRIPT_NONCE__".toList pieces ∧
      nonces = (List.range (pieces.length - 1)).map (· + 7) ∧
      replaceCspNonce (· + 7) "a __TAURI_SCRIPT_NONCE__ b __TAURI_SCRIPT_NONCE__" scriptNonceToken
          ((∅ : Directives).insert "script-src" (.list ["https:"])) "script-src" ["'sha256-x'"] =
        some (String.ofList (weave pieces (nonces.map fun nonce => (toString nonce).toList)),
          (if Rust.contains scriptNonceToken "a __TAURI_SCRIPT_NONCE__ b __TAURI_SCRIPT_NONCE__" =
              false ∧ ["'sha256-x'"] = [] then
            (∅ : Directives).insert "script-src" (.list ["https:"])
          else
            let old := (((∅ : Directives).insert "script-src" (.list ["https:"]))["script-src"]?.map
              CspDirectiveSources.toVec).getD []
            ((∅ : Directives).insert "script-src" (.list ["https:"])).insert "script-src"
              (.list (old ++ (if selfSource ∈ old then [] else [selfSource]) ++
                nonces.map nonceSource ++ ["'sha256-x'"]))),
          nonces) := by
  refine replaceCspNonce_agrees (· + 7) _ scriptNonceToken (by decide) _ (fun d sources h => ?_)
    "script-src" ["'sha256-x'"]
  rcases BTreeMap.getElem?_insert_eq_some.mp h with ⟨-, rfl⟩ | ⟨-, h⟩
  · exact ⟨_, rfl⟩
  · simp at h

example : replaceCspNonce (· + 7) "a __TAURI_SCRIPT_NONCE__ b" scriptNonceToken ∅ "script-src" [] =
    some ("a 7 b", (∅ : Directives).insert "script-src" (.list ["'self'", "'nonce-7'"]), [7]) := by
  rfl

end Tauri.Csp
