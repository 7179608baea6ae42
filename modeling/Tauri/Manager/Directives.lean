import Tauri.Manager.Assets

/-!
# Printing a policy again

A policy that is given as a text is turned into a map of its directives, changed, and printed. The
text is cut at `;`, and each directive at its spaces; a browser cuts a directive at any ASCII white
space, and what it does not see in a name it does not see in the map either: the map keeps the
texts between the spaces, and prints them with a space between them.

* **A map is printed so that it is read again** (`toMap_displayDirectives`), in whichever order its
  entries come.
* **The last directive of a name wins in the map, the first one in a browser.** Names that differ in
  their case, or in a tab that stands between the name and its first source, are different keys of
  the map, and their order is that of the hashes. White space at the ends of a directive is
  trimmed whether it is ASCII or not (`sameMeaning_iff_stable`).
-/

namespace Tauri.Assets

open Rust Tauri.Csp List

/-- The order in which the entries of a `HashMap` come. -/
def Enumerates (entries : List (String × CspDirectiveSources)) (map : Directives) : Prop :=
  entries.Perm map.toList

/-! ### Reading and printing -/

/-- What `Display` prints for an entry. -/
def displayEntry (entry : String × CspDirectiveSources) : String :=
  entry.1 ++ " " ++ " ".intercalate entry.2.toVec

/-- The key of a directive in the map. -/
def keyword (directive : String) : String := (split ' ' (trim directive)).headD ""

/-- The sources of a directive in the map. -/
def sourcesOf (directive : String) : List String := (split ' ' (trim directive)).tail

def entryOf (directive : String) : String × CspDirectiveSources :=
  (keyword directive, .list (sourcesOf directive))

theorem displayEntry_entryOf (directive : String) : displayEntry (entryOf directive) =
    keyword directive ++ " " ++ " ".intercalate (sourcesOf directive) := by
  simp only [displayEntry, entryOf, CspDirectiveSources.toVec]

theorem split_ne_nil (c : Char) (s : String) : split c s ≠ [] := by
  rw [split, ne_eq, map_eq_nil_iff]
  exact splitOn_ne_nil c s.toList

theorem keyword_cons_sourcesOf (directive : String) :
    keyword directive :: sourcesOf directive = split ' ' (trim directive) := by
  obtain ⟨name, sources, hsplit⟩ := exists_cons_of_ne_nil (split_ne_nil ' ' (trim directive))
  rw [keyword, sourcesOf, hsplit]
  rfl

theorem insertDirective_eq (map : Directives) (directive : String) :
    insertDirective map directive = map.insert (entryOf directive).1 (entryOf directive).2 := by
  rw [insertDirective, ← keyword_cons_sourcesOf, entryOf]

theorem toMap_policy (policy : String) :
    (Csp.policy policy).toMap = BTreeMap.insertAll ∅ ((split ';' policy).map entryOf) := by
  change (split ';' policy).foldl insertDirective ∅ = _
  rw [BTreeMap.insertAll, foldl_map]
  exact foldl_ext _ _ _ fun map directive _ => insertDirective_eq map directive

/-- Between the printed entries there is a separator and a space, which goes to the next entry. -/
theorem split_intercalate {piece : String} {pieces : List String}
    (h : ∀ p ∈ piece :: pieces, ';' ∉ p.toList) :
    split ';' ("; ".intercalate (piece :: pieces)) = piece :: pieces.map (" " ++ ·) := by
  induction pieces generalizing piece with
  | nil => rw [String.intercalate_singleton, split_of_not_mem (h piece (by simp))]; rfl
  | cons next pieces ih =>
    obtain ⟨hpiece, hnext, hrest⟩ : ';' ∉ piece.toList ∧ ';' ∉ next.toList ∧
        ∀ p ∈ pieces, ';' ∉ p.toList := by simpa using h
    have hlist : ("; ".intercalate (piece :: next :: pieces)).toList =
        piece.toList ++ ';' :: ("; ".intercalate ((" " ++ next) :: pieces)).toList := by
      rw [String.intercalate_cons_cons, String.intercalate_cons_append]
      simp [String.toList_append]
    have hrec := @ih (" " ++ next) (by
      intro p hp
      rcases mem_cons.mp hp with rfl | hp
      · simpa [String.toList_append] using hnext
      · exact hrest p hp)
    rw [split, hlist, splitOn_append_cons_self, map_append, ← split, ← split, hrec,
      split_of_not_mem hpiece]
    rfl

variable {c : Char}

theorem mem_toList_intercalate {sep : String} {words : List String}
    (h : c ∈ (sep.intercalate words).toList) :
    c ∈ sep.toList ∨ ∃ word ∈ words, c ∈ word.toList := by
  rw [String.toList_intercalate] at h
  simpa using mem_of_mem_intercalate h

theorem mem_of_mem_split {d : Char} {s word : String} (h : word ∈ split d s)
    (hc : c ∈ word.toList) : c ∈ s.toList := by
  obtain ⟨l, hl, rfl⟩ := mem_map.mp h
  rw [String.toList_ofList] at hc
  exact mem_of_mem_splitOn hl hc

theorem intercalate_split (s : String) : " ".intercalate (split ' ' s) = s := by
  have hid : (String.toList ∘ String.ofList) = id := funext fun l => String.toList_ofList
  rw [← String.toList_inj, String.toList_intercalate, split, map_map, hid, map_id]
  exact intercalate_splitOn ' '

theorem insertAll_of_enumerates {entries : List (String × CspDirectiveSources)} {map : Directives}
    (h : Enumerates entries map) : BTreeMap.insertAll ∅ entries = map := by
  refine Std.ExtTreeMap.ext_getElem? fun name => ?_
  have hperm : (valuesAt name entries).Perm map[name]?.toList := by
    rw [← BTreeMap.valuesAt_toList]
    exact h.filterMap _
  have hvals : valuesAt name entries = map[name]?.toList := by
    cases hname : map[name]? with
    | none => exact perm_nil.mp (by simpa [hname] using hperm)
    | some => exact perm_singleton.mp (by simpa [hname] using hperm)
  rw [BTreeMap.getElem?_insertAll, hvals]
  cases map[name]? <;> rfl

/-- A word of a policy: neither empty nor cut by what the policy is cut at. -/
def IsPlain (word : String) : Prop :=
  word ≠ "" ∧ ∀ c ∈ word.toList, isWhitespace c = false ∧ c ≠ ';'

/-- An entry of plain words, with at least one source. -/
def PlainEntry (entry : String × CspDirectiveSources) : Prop :=
  IsPlain entry.1 ∧ ∃ sources, entry.2 = .list sources ∧ sources ≠ [] ∧
    ∀ source ∈ sources, IsPlain source

section Plain

variable {words : List String} {entry : String × CspDirectiveSources}

theorem IsPlain.toList_ne_nil {word : String} (h : IsPlain word) : word.toList ≠ [] := by
  rw [ne_eq, String.toList_eq_nil_iff]
  exact h.1

theorem trim_intercalate (h : ∀ word ∈ words, IsPlain word) :
    trim (" ".intercalate words) = " ".intercalate words := by
  refine trim_eq_self ?_ ?_
  · cases words with
    | nil => simp
    | cons word words =>
      obtain ⟨c, cs, hword⟩ := exists_cons_of_ne_nil (h word (by simp)).toList_ne_nil
      intro d hd
      have hfirst : (" ".intercalate (word :: words)).toList.head? = some c := by simp_all
      rw [hfirst] at hd
      obtain rfl := Option.some.inj hd
      exact ((h word (by simp)).2 c (by simp [hword])).1
  · obtain rfl | ⟨front, word, rfl⟩ := eq_nil_or_concat' words
    · simp
    · intro d hd
      have hword := h word (by simp)
      have hlast : (" ".intercalate (front ++ [word])).toList.getLast? = word.toList.getLast? := by
        rcases eq_or_ne front [] with rfl | hfront
        · rw [nil_append, String.intercalate_singleton]
        · rw [String.intercalate_append_of_ne_nil hfront (by simp), String.intercalate_singleton,
            String.toList_append, getLast?_append_of_ne_nil _ hword.toList_ne_nil]
      rw [hlast] at hd
      exact (hword.2 d (mem_of_getLast? hd)).1

theorem split_space_intercalate (h : ∀ word ∈ words, IsPlain word) (hne : words ≠ []) :
    split ' ' (" ".intercalate words) = words := by
  have hsp : ∀ l ∈ words.map String.toList, ' ' ∉ l := by
    intro l hl hmem
    obtain ⟨word, hword, rfl⟩ := mem_map.mp hl
    exact absurd ((h word hword).2 ' ' hmem).1 (by decide)
  rw [split, String.toList_intercalate]
  change (splitOn ' ' ([' '].intercalate _)).map _ = _
  rw [splitOn_intercalate ' ' hsp (by simpa using hne), map_map]
  exact map_id'' (fun word => String.ofList_toList) words

theorem PlainEntry.exists_display (h : PlainEntry entry) : ∃ sources,
    entry = (entry.1, .list sources) ∧ sources ≠ [] ∧
    (∀ word ∈ entry.1 :: sources, IsPlain word) ∧
    displayEntry entry = " ".intercalate (entry.1 :: sources) := by
  obtain ⟨hname, sources, hsrcs, hne, hplain⟩ := h
  refine ⟨sources, Prod.ext rfl hsrcs, hne, ?_, ?_⟩
  · simp_all
  · rw [displayEntry, hsrcs, String.intercalate_cons_of_ne_nil hne]
    rfl

theorem PlainEntry.entryOf_display (h : PlainEntry entry) :
    entryOf (displayEntry entry) = entry ∧ entryOf (" " ++ displayEntry entry) = entry := by
  obtain ⟨sources, hent, -, hplain, hdisp⟩ := h.exists_display
  have hread : ∀ text, trim text = trim (displayEntry entry) → entryOf text = entry := by
    intro text htext
    rw [entryOf, keyword, sourcesOf, htext, hdisp, trim_intercalate hplain,
      split_space_intercalate hplain (by simp)]
    exact hent.symm
  exact ⟨hread _ rfl, hread _ (trim_space _)⟩

theorem PlainEntry.not_mem_display (h : PlainEntry entry) : ';' ∉ (displayEntry entry).toList := by
  obtain ⟨sources, -, -, hplain, hdisp⟩ := h.exists_display
  intro hmem
  rw [hdisp] at hmem
  rcases mem_toList_intercalate hmem with hsp | ⟨word, hword, hc⟩
  · exact absurd hsp (by decide)
  · exact ((hplain word hword).2 ';' hc).2 rfl

end Plain

/-- A map of plain words is printed so that reading it gives the map again. -/
theorem toMap_displayDirectives {map : Directives} (hne : map ≠ ∅)
    (hplain : ∀ name sources, map[name]? = some sources → PlainEntry (name, sources))
    {entries : List (String × CspDirectiveSources)} (h : Enumerates entries map) :
    (Csp.policy (displayDirectives entries)).toMap = map := by
  have hents : ∀ entry ∈ entries, PlainEntry entry := fun entry hent =>
    hplain entry.1 entry.2
      (Std.ExtTreeMap.mem_toList_iff_getElem?_eq_some.mp (h.mem_iff.mp hent))
  have hread : (split ';' (displayDirectives entries)).map entryOf = entries := by
    cases entries with
    | nil =>
      have hemp := insertAll_of_enumerates h
      exact absurd hemp.symm hne
    | cons entry entries =>
      have hcut : ∀ p ∈ displayEntry entry :: entries.map displayEntry, ';' ∉ p.toList := by
        intro p hp
        rw [← map_cons] at hp
        obtain ⟨e, he, rfl⟩ := mem_map.mp hp
        exact (hents e he).not_mem_display
      change (split ';' ("; ".intercalate (displayEntry entry :: entries.map displayEntry))).map
        entryOf = _
      rw [split_intercalate hcut, map_cons, map_map, map_map,
        (hents entry (by simp)).entryOf_display.1]
      refine congrArg (entry :: ·) ?_
      exact (map_congr_left fun e he =>
        (hents e (mem_cons_of_mem _ he)).entryOf_display.2).trans (map_id _)
  rw [toMap_policy, hread]
  exact insertAll_of_enumerates h

/-- A map of two directives, printed with the second one first. -/
theorem sample_toMap_display :
    let map : Directives :=
      (∅ : Directives).insert "default-src" (.list ["'self'"]) |>.insert "img-src"
        (.list ["*", "data:"])
    let entries := [("img-src", .list ["*", "data:"]), ("default-src", .list ["'self'"])]
    displayDirectives entries = "img-src * data:; default-src 'self'" ∧
      (Csp.policy (displayDirectives entries)).toMap = map := by
  intro map entries
  have hplain : ∀ entry ∈ entries, PlainEntry entry := by
    intro entry hent
    simp only [entries, mem_cons, not_mem_nil, or_false] at hent
    rcases hent with rfl | rfl <;>
      exact ⟨⟨by decide, by simp [isWhitespace]⟩, _, rfl, by decide,
        by simp [IsPlain, isWhitespace]⟩
  have henum : Enumerates entries map := by
    unfold Enumerates
    decide
  refine ⟨by decide, toMap_displayDirectives (by decide) (fun name sources hname => ?_) henum⟩
  exact hplain _ (henum.mem_iff.mpr (Std.ExtTreeMap.mem_toList_iff_getElem?_eq_some.mpr hname))

/-! ### What a browser reads -/

def isAsciiWhitespace (c : Char) : Bool := c ∈ ['\t', '\n', '\x0c', '\r', ' ']

/-- The words of a text, between ASCII white space. -/
def asciiWords (text : String) : List String :=
  nonEmpty ((text.toList.splitOnP isAsciiWhitespace).map String.ofList)

def asciiLowercase (name : String) : String := String.ofList (name.toList.map Char.toLower)

/-- A directive as a browser reads it, with its name in lower case. -/
def readDirective (directive : String) : Option (String × List String) :=
  match asciiWords directive with
  | [] => none
  | name :: sources => some (asciiLowercase name, sources)

/-- The sources that a browser takes for a name: those of the first directive with this name. -/
def browserSources (policy name : String) : Option (List String) :=
  ((split ';' policy).filterMap readDirective).lookup name

/-- The same directives with the same sets of sources. -/
def SameMeaning (policy policy' : String) : Prop :=
  ∀ name, (browserSources policy name).map List.toFinset =
    (browserSources policy' name).map List.toFinset

/-- The last directive with a key, which is the one that the map keeps. -/
def lastWith (policy key : String) : Option String :=
  (split ';' policy).reverse.find? fun directive => keyword directive == key

/-- A policy that may be printed again: the last directive with a key has the sources of the first
one with its name, and trimming loses no name. -/
structure Stable (policy : String) : Prop where
  sources : ∀ directive, lastWith policy (keyword directive) = some directive →
    ∀ name sources, readDirective (trim directive) = some (name, sources) →
      (browserSources policy name).map List.toFinset = some sources.toFinset
  names : ∀ name, browserSources policy name ≠ none →
    ∃ directive ∈ split ';' policy, ∃ sources, readDirective (trim directive) = some (name, sources)

theorem isWhitespace_of_ascii (h : isAsciiWhitespace c = true) : isWhitespace c = true := by
  simp only [isAsciiWhitespace, decide_eq_true_eq, mem_cons, not_mem_nil, or_false] at h
  rcases h with rfl | rfl | rfl | rfl | rfl <;> decide

section Words

variable {s t : String} {policy : String} {directive name : String}

theorem asciiWords_append (s t : String) :
    asciiWords (s ++ " " ++ t) = asciiWords s ++ asciiWords t := by
  have hlist : (s ++ " " ++ t).toList = s.toList ++ ' ' :: t.toList := by
    simp [String.toList_append]
  rw [asciiWords, hlist, splitOnP_append_cons _ _ (by decide), map_append, nonEmpty, filter_append]
  rfl

theorem asciiWords_empty : asciiWords "" = [] := by decide

theorem asciiWords_space (s : String) : asciiWords (" " ++ s) = asciiWords s := by
  have h := asciiWords_append "" s
  rwa [String.empty_append, asciiWords_empty, nil_append] at h

theorem asciiWords_intercalate (words : List String) :
    asciiWords (" ".intercalate words) = words.flatMap asciiWords := by
  induction words with
  | nil => exact asciiWords_empty
  | cons word words ih =>
    cases words with
    | nil => simp
    | cons =>
      rw [String.intercalate_cons_cons, asciiWords_append, ih, flatMap_cons (x := word)]

theorem flatMap_asciiWords_split (s : String) : (split ' ' s).flatMap asciiWords = asciiWords s := by
  rw [← asciiWords_intercalate, intercalate_split]

theorem readDirective_displayEntry (directive : String) :
    readDirective (displayEntry (entryOf directive)) = readDirective (trim directive) := by
  have hwords : asciiWords (displayEntry (entryOf directive)) = asciiWords (trim directive) := by
    rw [displayEntry_entryOf, asciiWords_append, asciiWords_intercalate, ← flatMap_cons, keyword_cons_sourcesOf,
      flatMap_asciiWords_split]
  rw [readDirective, readDirective, hwords]

theorem semicolon_not_mem_display (h : ';' ∉ directive.toList) :
    ';' ∉ (displayEntry (entryOf directive)).toList := by
  have hword : ∀ word ∈ split ' ' (trim directive), ';' ∉ word.toList := by
    intro word hword hc
    exact h (mem_of_mem_trim (mem_of_mem_split hword hc))
  rw [← keyword_cons_sourcesOf] at hword
  intro hmem
  rw [displayEntry_entryOf, String.toList_append, String.toList_append, mem_append,
    mem_append] at hmem
  rcases hmem with (hkey | hsp) | hsrcs
  · exact hword _ (by simp) hkey
  · exact absurd hsp (by decide)
  · rcases mem_toList_intercalate hsrcs with hsp | ⟨word, hsrc, hc⟩
    · exact absurd hsp (by decide)
    · exact hword word (mem_cons_of_mem _ hsrc) hc

variable {entries : List (String × CspDirectiveSources)}

theorem filterMap_readDirective_display (h : ∀ entry ∈ entries, ';' ∉ (displayEntry entry).toList) :
    (split ';' (displayDirectives entries)).filterMap readDirective =
      entries.filterMap fun entry => readDirective (displayEntry entry) := by
  cases entries with
  | nil => decide
  | cons entry entries =>
    have hcut : ∀ p ∈ displayEntry entry :: entries.map displayEntry, ';' ∉ p.toList := by grind
    have hsp : readDirective ∘ (" " ++ ·) = readDirective :=
      funext fun text => by rw [Function.comp, readDirective, asciiWords_space, ← readDirective]
    change (split ';' ("; ".intercalate (displayEntry entry :: entries.map displayEntry))).filterMap
      readDirective = _
    rw [split_intercalate hcut, filterMap_cons, filterMap_map, hsp, filterMap_map, filterMap_cons]
    rfl

theorem findSome?_ite {α β : Type} (p : α → Bool) (f : α → β) (l : List α) :
    (l.findSome? fun x => if p x then some (f x) else none) = (l.find? p).map f := by
  induction l with
  | nil => rfl
  | cons x l ih => cases hx : p x <;> simp [hx, ih]

theorem getElem?_toMap (policy key : String) : (Csp.policy policy).toMap[key]? =
    (lastWith policy key).map fun directive => .list (sourcesOf directive) := by
  rw [toMap_policy, BTreeMap.getElem?_insertAll, Std.ExtTreeMap.getElem?_empty, Option.or_none,
    valuesAt, getLast?_filterMap, ← map_reverse, findSome?_map, lastWith,
    ← findSome?_ite]
  refine congrArg (findSome? · _) (funext fun directive => ?_)
  by_cases hkey : keyword directive = key <;> simp [entryOf, hkey]

theorem lastWith_eq_some {key : String} (h : lastWith policy key = some directive) :
    directive ∈ split ';' policy ∧ keyword directive = key :=
  ⟨mem_reverse.mp (mem_of_find?_eq_some h), by simpa using find?_some h⟩

theorem asciiWords_ne_nil {c : Char} {cs : List Char} (hs : s.toList = c :: cs)
    (hc : isAsciiWhitespace c = false) : asciiWords s ≠ [] := by
  obtain ⟨seg, rest, hsplit⟩ := exists_cons_of_ne_nil (splitOnP_ne_nil isAsciiWhitespace cs)
  rw [asciiWords, hs, splitOnP_cons_eq_if_modifyHead, hc, hsplit]
  simp [nonEmpty]

theorem asciiWords_keyword_ne_nil (h : asciiWords (trim directive) ≠ []) :
    asciiWords (keyword directive) ≠ [] := by
  have hne : (trim directive).toList ≠ [] := by
    intro hnil
    rw [String.toList_eq_nil_iff.mp hnil] at h
    exact h asciiWords_empty
  obtain ⟨c, cs, hlist⟩ := exists_cons_of_ne_nil hne
  have hc : isWhitespace c = false := not_isWhitespace_head_trim (s := directive) (by simp [hlist])
  have hsp : c ≠ ' ' := by
    rintro rfl
    exact absurd hc (by decide)
  obtain ⟨seg, rest, hsplit⟩ := exists_splitOn_eq_cons ' ' cs
  have hkey : (keyword directive).toList = c :: seg := by
    rw [keyword, split, hlist, splitOn_cons_of_ne hsp hsplit]
    simp
  refine asciiWords_ne_nil hkey (Bool.eq_false_iff.mpr fun hascii => ?_)
  rw [isWhitespace_of_ascii hascii] at hc
  cases hc

theorem readDirective_of_keyword {directive' : String} {sources : List String}
    (hkey : keyword directive' = keyword directive)
    (h : readDirective (trim directive) = some (name, sources)) :
    ∃ sources', readDirective (trim directive') = some (name, sources') := by
  have hwords : ∀ d, asciiWords (trim d) = asciiWords (keyword d) ++
      (sourcesOf d).flatMap asciiWords := fun d => by
    rw [← flatMap_asciiWords_split, ← keyword_cons_sourcesOf, flatMap_cons]
  have hne : asciiWords (trim directive) ≠ [] := by
    intro hnil
    rw [readDirective, hnil] at h
    cases h
  obtain ⟨word, rest, hword⟩ := exists_cons_of_ne_nil (asciiWords_keyword_ne_nil hne)
  rw [readDirective, hwords, hword] at h
  obtain ⟨rfl, -⟩ := Prod.mk.inj (Option.some.inj h)
  rw [readDirective, hwords, hkey, hword]
  exact ⟨_, rfl⟩

section

variable (h : Enumerates entries (Csp.policy policy).toMap)
include h

theorem mem_entries {entry : String × CspDirectiveSources} :
    entry ∈ entries ↔
      ∃ directive, lastWith policy (keyword directive) = some directive ∧
        entryOf directive = entry := by
  obtain ⟨key, sources⟩ := entry
  rw [h.mem_iff, Std.ExtTreeMap.mem_toList_iff_getElem?_eq_some, getElem?_toMap,
    Option.map_eq_some_iff]
  simp only [entryOf, Prod.mk.injEq]
  constructor
  · rintro ⟨directive, hlast, rfl⟩
    obtain rfl := (lastWith_eq_some hlast).2
    exact ⟨directive, hlast, rfl, rfl⟩
  · rintro ⟨directive, hlast, rfl, rfl⟩
    exact ⟨directive, hlast, rfl⟩

theorem read_entries :
    (split ';' (displayDirectives entries)).filterMap readDirective =
      entries.filterMap fun entry => readDirective (displayEntry entry) := by
  refine filterMap_readDirective_display fun entry hent => ?_
  obtain ⟨directive, hlast, rfl⟩ := (mem_entries h).mp hent
  exact semicolon_not_mem_display (not_mem_of_mem_split (lastWith_eq_some hlast).1)

theorem mem_read_entries {sources : List String} :
    (name, sources) ∈ (split ';' (displayDirectives entries)).filterMap readDirective ↔
      ∃ directive, lastWith policy (keyword directive) = some directive ∧
        readDirective (trim directive) = some (name, sources) := by
  rw [read_entries h, mem_filterMap]
  constructor
  · rintro ⟨entry, hent, hread⟩
    obtain ⟨directive, hlast, rfl⟩ := (mem_entries h).mp hent
    exact ⟨directive, hlast, by rwa [← readDirective_displayEntry]⟩
  · rintro ⟨directive, hlast, hread⟩
    exact ⟨entryOf directive, (mem_entries h).mpr ⟨directive, hlast, rfl⟩,
      by rwa [readDirective_displayEntry]⟩

end

end Words

/-- A policy keeps its meaning in every order of the map exactly if it is stable. -/
theorem sameMeaning_iff_stable (policy : String) :
    (∀ entries, Enumerates entries (Csp.policy policy).toMap →
      SameMeaning (displayDirectives entries) policy) ↔ Stable policy := by
  constructor
  · intro h
    refine ⟨fun directive hlast name sources hread => ?_, fun name hname => ?_⟩
    · -- The entry comes first in some order, and there it is the one that counts.
      have hmem : entryOf directive ∈ (Csp.policy policy).toMap.toList :=
        (mem_entries (Perm.refl _)).mpr ⟨directive, hlast, rfl⟩
      have henum : Enumerates (entryOf directive :: (Csp.policy policy).toMap.toList.erase
          (entryOf directive)) (Csp.policy policy).toMap := (perm_cons_erase hmem).symm
      have hfirst : browserSources (displayDirectives (entryOf directive ::
          (Csp.policy policy).toMap.toList.erase (entryOf directive))) name = some sources := by
        rw [browserSources, read_entries henum, filterMap_cons, readDirective_displayEntry, hread]
        exact lookup_cons_self
      rw [← h _ henum name, hfirst, Option.map_some]
    · obtain ⟨sources, hsrcs⟩ := Option.ne_none_iff_exists'.mp hname
      have hsame := h _ (Perm.refl _) name
      rw [hsrcs, Option.map_some, Option.map_eq_some_iff] at hsame
      obtain ⟨sources', hsrcs', -⟩ := hsame
      obtain ⟨l₁, l₂, hl, -⟩ := lookup_eq_some_iff.mp hsrcs'
      obtain ⟨directive, hlast, hread⟩ :=
        (mem_read_entries (Perm.refl _)).mp (hl ▸ mem_append_right l₁ mem_cons_self)
      exact ⟨directive, (lastWith_eq_some hlast).1, sources', hread⟩
  · intro h entries henum name
    cases hread : browserSources (displayDirectives entries) name with
    | some sources =>
      obtain ⟨l₁, l₂, hl, -⟩ := lookup_eq_some_iff.mp hread
      obtain ⟨directive, hlast, hdir⟩ :=
        (mem_read_entries henum).mp (hl ▸ mem_append_right l₁ mem_cons_self)
      exact (h.sources directive hlast name sources hdir).symm
    | none =>
      by_contra hne
      have hname : browserSources policy name ≠ none := fun hnone => hne (by rw [hnone])
      obtain ⟨directive, hmem, sources, hdir⟩ := h.names name hname
      obtain ⟨last, hlast⟩ : ∃ last, lastWith policy (keyword directive) = some last := by
        rw [← Option.isSome_iff_exists, lastWith, find?_isSome]
        exact ⟨directive, mem_reverse.mpr hmem, beq_self_eq_true _⟩
      have hkey := (lastWith_eq_some hlast).2
      obtain ⟨sources', hsrcs'⟩ := readDirective_of_keyword hkey hdir
      rw [← hkey] at hlast
      have hent := (mem_read_entries henum).mpr ⟨last, hlast, hsrcs'⟩
      have hnot := lookup_eq_none_iff.mp hread _ hent
      simp at hnot

/-- The second directive is what is printed, the first one is what a browser takes. -/
theorem last_directive_printed :
    let policy := "img-src a; img-src b"
    ∃ entries, Enumerates entries (Csp.policy policy).toMap ∧
      displayDirectives entries = "img-src b" ∧ ¬SameMeaning (displayDirectives entries) policy := by
  intro policy
  refine ⟨[("img-src", .list ["b"])], ?_, by decide, fun h => ?_⟩
  · have hread : (split ';' policy).map entryOf =
        [("img-src", .list ["a"]), ("img-src", .list ["b"])] := by decide
    rw [Enumerates, toMap_policy, hread]
    decide
  · exact absurd (h "img-src") (by decide)

end Tauri.Assets
