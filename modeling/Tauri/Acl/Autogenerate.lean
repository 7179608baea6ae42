import Tauri.Acl.Segments
import Tauri.Acl.Transparency

/-!
# Permissions made from commands

A plugin gives the names of its commands to the build, which writes a permission to allow and one
to deny each of them. The identifiers are made of the command with `-` for `_`, and **nobody looks
whether they are identifiers**: a Rust function may be called `_hidden` or `open__file`, and the
resolver stops with a panic at a permission set with such a name.

The commands it works for are stated on their names (`PlainName`). Different commands have
different identifiers in any case, as the character that is put in does not occur in Rust names.
-/

namespace Tauri.Acl

open Rust List

/-! ### Generating permissions -/

/-- `command.replace('_', "-")`, one character. -/
def slugChar (c : Char) : Char := if c = '_' then '-' else c

/-- `slugified_command`. -/
def slugify (command : String) : String := String.ofList (command.toList.map slugChar)

def allowIdentifier (command : String) : String := "allow-" ++ slugify command

def denyIdentifier (command : String) : String := "deny-" ++ slugify command

/-- `[[permission]]` for the command to be allowed. -/
def allowPermission (command : String) : Permission where
  identifier := allowIdentifier command
  commands := { allow := [command] }

/-- `[[permission]]` for the command to be denied. -/
def denyPermission (command : String) : Permission where
  identifier := denyIdentifier command
  commands := { deny := [command] }

/-- What the file written for a command says. -/
def commandFile (command : String) : PermissionFile where
  permission := [allowPermission command, denyPermission command]

/-- `AutogeneratedPermissions`, with the files by name. -/
structure AutogeneratedPermissions where
  allowed : List String := []
  denied : List String := []
  files : List (String × PermissionFile) := []

/-- `autogenerate_command_permissions`. -/
def autogenerateCommandPermissions (commands : List String) : AutogeneratedPermissions :=
  commands.foldl (fun autogenerated command =>
    { allowed := autogenerated.allowed ++ [allowIdentifier command]
      denied := autogenerated.denied ++ [denyIdentifier command]
      files := autogenerated.files ++ [(command ++ ".toml", commandFile command)] }) {}

theorem autogenerateCommandPermissions_eq (commands : List String) :
    autogenerateCommandPermissions commands =
      { allowed := commands.map allowIdentifier
        denied := commands.map denyIdentifier
        files := commands.map fun command => (command ++ ".toml", commandFile command) } := by
  induction commands using reverseRecOn with
  | nil => rfl
  | append_singleton _ _ ih =>
    unfold autogenerateCommandPermissions at ih ⊢
    rw [foldl_append, ih]
    simp

/-! ### Names of commands -/

/-- The character classes of Rust names, `XID_Start` and `XID_Continue`, as far as they are known
for ASCII. -/
structure UnicodeXid where
  isStart : Char → Bool
  isContinue : Char → Bool
  start_ascii : ∀ c : Char, c.toNat < 128 → isStart c = c.isAlpha
  continue_ascii : ∀ c : Char, c.toNat < 128 → isContinue c = (c.isAlphanum || c == '_')

/-- A Rust identifier; keywords are not told apart. -/
def RustIdentifier (X : UnicodeXid) (name : String) : Prop :=
  ∃ c cs, name.toList = c :: cs ∧ (X.isStart c = true ∨ (c = '_' ∧ cs ≠ [])) ∧
    ∀ d ∈ cs, X.isContinue d = true

/-- A name of ASCII letters and digits, and of underscores that stand between two of them. With
`allow-` in front it has the length of an identifier. -/
structure PlainName (command : String) : Prop where
  word : Jointed Char.isAlphanum '_' command.toList
  length : (bytes command).length ≤ 110

variable {X : UnicodeXid} {c : Char} {command : String}

/-- The characters that are replaced by, and the separator of identifiers, are not in Rust
names. -/
theorem RustIdentifier.not_mem {name : String} (h : RustIdentifier X name)
    (hascii : c.toNat < 128) (hstart : c.isAlpha = false) (hcontinue : c.isAlphanum = false)
    (hne : c ≠ '_') : c ∉ name.toList := by
  obtain ⟨d, ds, hname, hd, hds⟩ := h
  rw [hname]
  intro hmem
  rcases mem_cons.mp hmem with rfl | hmem
  · rcases hd with hd | ⟨hd, -⟩
    · rw [X.start_ascii c hascii, hstart] at hd
      cases hd
    · exact hne hd
  · have hc := hds c hmem
    rw [X.continue_ascii c hascii, hcontinue] at hc
    simp [hne] at hc

theorem toList_slugify (command : String) :
    (slugify command).toList = command.toList.map slugChar := String.toList_ofList

/-- **Different commands have different slugs**, unless there is a hyphen in one. -/
theorem eq_of_slugify_eq {command' : String} (h : '-' ∉ command.toList)
    (h' : '-' ∉ command'.toList) (heq : slugify command = slugify command') :
    command = command' := by
  have hback : ∀ {name : String}, '-' ∉ name.toList →
      (slugify name).toList.map (fun c => if c = '-' then '_' else c) = name.toList := by
    intro name hname
    rw [toList_slugify, map_map]
    refine (map_congr_left fun c hc => ?_).trans (map_id _)
    have hne : c ≠ '-' := fun heq => hname (heq ▸ hc)
    by_cases hunder : c = '_'
    · simp [slugChar, hunder]
    · simp [slugChar, hunder, hne]
  apply String.toList_injective
  rw [← hback h, ← hback h', heq]

theorem allowIdentifier_ne_denyIdentifier (command command' : String) :
    allowIdentifier command ≠ denyIdentifier command' := by
  intro h
  have hhead := congrArg (fun s => s.toList.head?) h
  simp [allowIdentifier, denyIdentifier, String.toList_append] at hhead

/-! ### Which names are accepted -/

theorem toNat_lt_of_alphanum (h : c.isAlphanum = true ∨ c = '_') : c.toNat < 128 := by
  rcases h with h | rfl
  · exact toNat_lt_of_isAlphanum h
  · decide

theorem isAsciiAlphanumeric_ofNat (h : c.toNat < 128) :
    isAsciiAlphanumeric (UInt8.ofNat c.toNat) = c.isAlphanum := by
  have hall : ∀ n : Fin 128,
      isAsciiAlphanumeric (UInt8.ofNat n) = (Char.ofNat n).isAlphanum := by decide
  have hchar := hall ⟨c.toNat, h⟩
  rwa [Char.ofNat_toNat] at hchar

/-- The byte that a character of a command becomes. -/
def slugByte (c : Char) : UInt8 := UInt8.ofNat (slugChar c).toNat

theorem slugChar_ascii : (slugChar c).toNat < 128 ↔ c.toNat < 128 := by
  by_cases h : c = '_' <;> simp [slugChar, h]

theorem bytes_slugify (h : ∀ c ∈ command.toList, c.toNat < 128) :
    bytes (slugify command) = command.toList.map slugByte := by
  have hslug : ∀ c ∈ (slugify command).toList, c.toNat < 128 := by
    rw [toList_slugify]
    simpa [slugChar_ascii] using h
  rw [bytes_eq_map_toList hslug, toList_slugify, map_map]
  rfl

theorem length_bytes_slugify (h : ∀ c ∈ command.toList, c.toNat < 128) :
    (bytes (slugify command)).length = (bytes command).length := by
  rw [bytes_slugify h, bytes_eq_map_toList h, length_map, length_map]

theorem segment_slugify_iff (hascii : ∀ c ∈ command.toList, c.toNat < 128)
    (hhyphen : '-' ∉ command.toList) : Segment (bytes (slugify command)) ↔
      Jointed Char.isAlphanum '_' command.toList := by
  rw [bytes_slugify hascii]
  have hjoint : Char.isAlphanum '_' = false := by decide
  have hbyte {c : Char} (hunder : c ≠ '_') : slugByte c = UInt8.ofNat c.toNat := by
    rw [slugByte, slugChar, if_neg hunder]
  refine Jointed.map_iff hjoint isAsciiAlphanumeric_hyphen (fun c hc => ?_) fun c hc => ?_
  · by_cases hunder : c = '_'
    · subst hunder
      decide
    · rw [hbyte hunder, isAsciiAlphanumeric_ofNat (hascii c hc)]
  · by_cases hunder : c = '_'
    · subst hunder
      decide
    · rw [hbyte hunder]
      refine iff_of_false (fun heq => hhyphen ?_) hunder
      have hnat : c.toNat % 256 = 45 := by simpa [hyphen] using congrArg UInt8.toNat heq
      have hlt := hascii c hc
      have hval : c.toNat = '-'.toNat := by
        rw [show '-'.toNat = 45 from rfl]
        omega
      exact Char.toNat_inj.mp hval ▸ hc

open Identifier

theorem exists_tryFrom_iff_segment {value : String} (hcolon : ':' ∉ value.toList)
    (hplug : startsWith pluginPrefix value = false) :
    (∃ id, Identifier.tryFrom value = .ok id) ↔
      Segment (bytes value) ∧ (bytes value).length ≤ 116 := by
  have hone : (∀ b ∈ bytes value, IdentifierByte b) → segments value = [bytes value] := by
    intro hbytes
    refine splitOn_eq_singleton fun hmem => hcolon ?_
    rw [toList_eq_map_bytes fun b hb => (hbytes b hb).lt_128]
    exact mem_map.mpr ⟨_, hmem, rfl⟩
  constructor
  · rintro ⟨id, hid⟩
    obtain rfl := tryFrom_eq_ok.mp hid
    have hsegs := hone fun b hb => id.identifierByte_of_mem hb
    rcases wellFormed_or_coreHole id.scanned with hwell | hhole
    · refine ⟨hwell.parts _ ?_, hwell.length.2⟩
      rw [hsegs]
      exact mem_singleton_self _
    · obtain ⟨rest, hcore, hnil, -⟩ := hhole.core
      rw [hsegs] at hcore
      rw [← (cons.inj hcore).2] at hnil
      cases hnil
  · rintro ⟨hseg, hlen⟩
    have hsegs := hone fun b hb => (Jointed.valid hseg b hb).imp_right .inl
    refine exists_tryFrom_iff.mpr (.inl ⟨⟨?_, hlen⟩, hplug, ?_, .inl ?_⟩)
    · exact length_pos_iff.mpr hseg.ne_nil
    · rw [hsegs]
      exact forall_mem_singleton.mpr hseg
    · rw [hsegs, length_singleton]
      omega

theorem ascii_of_accepted {pre : String} {id : Identifier} (h : id.inner = pre ++ slugify command) :
    ∀ c ∈ command.toList, c.toNat < 128 := by
  intro c hc
  refine slugChar_ascii.mp ?_
  have hmem : slugChar c ∈ id.inner.toList := by
    rw [h, String.toList_append, toList_slugify]
    exact mem_append_right _ (mem_map_of_mem hc)
  obtain ⟨b, hb, hslug⟩ := id.char_of_mem hmem
  rw [hslug, toNat_ofNat_of_ascii hb.lt_128]
  simpa [UInt8.lt_iff_toNat_lt] using hb.lt_128

theorem colon_not_mem_slugify (hname : RustIdentifier X command) :
    ':' ∉ (slugify command).toList := by
  rw [toList_slugify, mem_map]
  rintro ⟨c, hc, hslug⟩
  unfold slugChar at hslug
  split_ifs at hslug with hunder
  · exact absurd hslug (by decide)
  · exact hname.not_mem (by decide) rfl rfl (by decide) (hslug ▸ hc)

theorem exists_tryFrom_slug_iff (pre : String) (hname : RustIdentifier X command)
    (hpre : Segment (bytes pre)) (hcolon : ':' ∉ pre.toList) (hhead : pre.toList.head? = some c)
    (hc : c ≠ 't') :
    (∃ id, Identifier.tryFrom (pre ++ "-" ++ slugify command) = .ok id) ↔
      Jointed Char.isAlphanum '_' command.toList ∧
        (bytes pre).length + 1 + (bytes command).length ≤ 116 := by
  have hhyphen : '-' ∉ command.toList := hname.not_mem (by decide) rfl rfl (by decide)
  have hcolon' : ':' ∉ (pre ++ "-" ++ slugify command).toList := by
    simp [String.toList_append, hcolon, colon_not_mem_slugify hname]
  have hbytes : bytes (pre ++ "-" ++ slugify command) =
      bytes pre ++ hyphen :: bytes (slugify command) := by
    rw [bytes_append, bytes_append, append_assoc]
    rfl
  have hplug : startsWith pluginPrefix (pre ++ "-" ++ slugify command) = false := by
    refine not_plugin_of_head (c := c) ?_ hc
    rw [String.toList_append, String.toList_append, append_assoc, head?_append, hhead]
    rfl
  have hcut : (∀ c ∈ command.toList, c.toNat < 128) →
      ((∃ id, tryFrom (pre ++ "-" ++ slugify command) = .ok id) ↔
        Jointed Char.isAlphanum '_' command.toList ∧
          (bytes pre).length + 1 + (bytes command).length ≤ 116) := by
    intro hascii
    rw [exists_tryFrom_iff_segment hcolon' hplug, hbytes, Segment,
      Jointed.append_iff isAsciiAlphanumeric_hyphen, ← Segment, ← Segment,
      segment_slugify_iff hascii hhyphen, and_iff_right hpre, length_append,
      length_cons, length_bytes_slugify hascii]
    refine and_congr_right fun _ => ?_
    omega
  constructor
  · rintro ⟨id, hid⟩
    exact (hcut (ascii_of_accepted (tryFrom_eq_ok.mp hid))).mp ⟨id, hid⟩
  · rintro ⟨hword, hlen⟩
    exact (hcut fun c hc => toNat_lt_of_alphanum (hword.valid c hc)).mpr ⟨hword, hlen⟩

/-! ### What a permission set resolves to -/

/-- The permissions of files, by identifier and in order. -/
def declaredPermissions (files : List PermissionFile) : List (String × Permission) :=
  files.flatMap fun file => file.permission.map fun p => (p.identifier, p)

theorem permissions_new (files : List PermissionFile) :
    (Manifest.new files).permissions =
      (∅ : BTreeMap String Permission).insertAll (declaredPermissions files) := by
  induction files using reverseRecOn with
  | nil => rfl
  | append_singleton files file ih =>
    have hnew : Manifest.new (files ++ [file]) = (Manifest.new files).addFile file := by
      rw [Manifest.new, foldl_append]
      rfl
    have hlist : declaredPermissions (files ++ [file]) =
        declaredPermissions files ++ file.permission.map fun p => (p.identifier, p) := by
      simp [declaredPermissions]
    rw [hnew, hlist, BTreeMap.insertAll_append, ← ih]
    rfl

/-- A permission that is declared, and under whose identifier no other one is declared in the
files or behind them. -/
theorem getElem?_permissions_new {before files after : List PermissionFile} {p : Permission}
    (hmem : (p.identifier, p) ∈ declaredPermissions files)
    (honly : ∀ q, (p.identifier, q) ∈ declaredPermissions files → q = p)
    (haft : ∀ q, (p.identifier, q) ∉ declaredPermissions after) :
    (Manifest.new (before ++ files ++ after)).permissions[p.identifier]? = some p := by
  have hlist : declaredPermissions (before ++ files ++ after) =
      declaredPermissions before ++ declaredPermissions files ++ declaredPermissions after := by
    simp [declaredPermissions]
  have hnone : valuesAt p.identifier (declaredPermissions after) = [] := valuesAt_eq_nil.mpr haft
  obtain ⟨q, hq⟩ : ∃ q, (valuesAt p.identifier (declaredPermissions files)).getLast? = some q :=
    Option.isSome_iff_exists.mp (getLast?_isSome.mpr
      (ne_nil_of_mem (mem_valuesAt.mpr hmem)))
  obtain rfl : q = p := honly q (mem_valuesAt.mp (mem_of_getLast? hq))
  have happ : ∀ l l' : List (String × Permission),
      valuesAt q.identifier (l ++ l') = valuesAt q.identifier l ++ valuesAt q.identifier l' :=
    fun l l' => filterMap_append
  rw [permissions_new, BTreeMap.getElem?_insertAll, hlist, happ, happ, hnone,
    append_nil, getLast?_append, hq]
  rfl

/-- The permission that the member `perm` of a set stands for has these commands. -/
def MemberGrants (acl : Manifests) (node : SetNode) (perm : String) (commands : Commands) : Prop :=
  ∃ t, setMember acl node perm = .ok (.permission t) ∧ t.permission.commands = commands

/-- The generated permissions of a list of commands can be used: each is accepted as an identifier,
different commands have different ones, and in a set of the manifest they are found, and stand for
their command and no other. The manifest may have been made of other files as well, as long as these
do not declare a generated permission anew. -/
structure AutogeneratedUsable (commands : List String) : Prop where
  accepted : ∀ p ∈ (autogenerateCommandPermissions commands).allowed ++
    (autogenerateCommandPermissions commands).denied, ∃ id, Identifier.tryFrom p = .ok id
  distinct : ∀ command ∈ commands, ∀ command' ∈ commands, command ≠ command' →
    allowIdentifier command ≠ allowIdentifier command' ∧
      denyIdentifier command ≠ denyIdentifier command'
  grants : ∀ (acl : Manifests) (node : SetNode) (before after : List PermissionFile),
    (∀ command ∈ commands, ∀ q, (allowIdentifier command, q) ∉ declaredPermissions after ∧
      (denyIdentifier command, q) ∉ declaredPermissions after) →
    node.manifest = Manifest.new (before ++
      (autogenerateCommandPermissions commands).files.map Prod.snd ++ after) →
    ∀ command ∈ commands,
      MemberGrants acl node (allowIdentifier command) { allow := [command] } ∧
        MemberGrants acl node (denyIdentifier command) { deny := [command] }

/-- A member that is an identifier without a prefix, and declared in the manifest of the set. -/
theorem memberGrants_of_local {acl : Manifests} {node : SetNode} {p : Permission}
    {id : Identifier} (hid : id.inner = p.identifier) (hcolon : ':' ∉ p.identifier.toList)
    (hdef : p.identifier ≠ "default")
    (hp : node.manifest.permissions[p.identifier]? = some p) :
    MemberGrants acl node p.identifier p.commands := by
  have hloc : ∀ k, id.getPrefix = some k → acl[k]? = none := by
    intro k hk
    refine absurd ?_ hcolon
    rw [← hid, (id.inner_eq_of_getPrefix hk).1]
    simp [String.toList_append]
  refine ⟨⟨manifestKey node.permissionId, p.identifier, p⟩, ?_, rfl⟩
  rw [setMember_eq_of_local hid hloc, memberIn, if_neg hdef, hp]

section Generated

variable {X : UnicodeXid} {commands : List String}

theorem mem_declared_generated {identifier : String} {q : Permission} :
    (identifier, q) ∈
        declaredPermissions ((autogenerateCommandPermissions commands).files.map Prod.snd) ↔
      ∃ command ∈ commands, identifier = q.identifier ∧
        (q = allowPermission command ∨ q = denyPermission command) := by
  rw [autogenerateCommandPermissions_eq]
  simp only [declaredPermissions, map_map, mem_flatMap, mem_map,
    Function.comp_apply, exists_exists_and_eq_and, commandFile, Prod.mk.injEq, mem_cons,
    not_mem_nil, or_false]
  constructor
  · rintro ⟨command, hcmd, p, hp, rfl, rfl⟩
    exact ⟨command, hcmd, rfl, hp⟩
  · rintro ⟨command, hcmd, rfl, hq⟩
    exact ⟨command, hcmd, q, hq, rfl, rfl⟩

theorem eq_of_declared_generated (hnames : ∀ command ∈ commands, RustIdentifier X command)
    {command : String} (hcmd : command ∈ commands) {p q : Permission}
    (hp : p = allowPermission command ∨ p = denyPermission command)
    (hdecl : (p.identifier, q) ∈
      declaredPermissions ((autogenerateCommandPermissions commands).files.map Prod.snd)) :
    q = p := by
  obtain ⟨command', hcmd', hid, hq⟩ := mem_declared_generated.mp hdecl
  have hslug : slugify command = slugify command' → command = command' :=
    eq_of_slugify_eq ((hnames _ hcmd).not_mem (by decide) rfl rfl (by decide))
      ((hnames _ hcmd').not_mem (by decide) rfl rfl (by decide))
  rcases hp with rfl | rfl <;> rcases hq with rfl | rfl
  · rw [hslug (String.append_right_inj _ |>.mp hid)]
  · exact absurd hid (allowIdentifier_ne_denyIdentifier _ _)
  · exact absurd hid.symm (allowIdentifier_ne_denyIdentifier _ _)
  · rw [hslug (String.append_right_inj _ |>.mp hid)]

end Generated

theorem exists_tryFrom_allow_iff (hname : RustIdentifier X command) :
    (∃ id, Identifier.tryFrom (allowIdentifier command) = .ok id) ↔ PlainName command := by
  have hlen : (bytes "allow").length = 5 := by decide
  refine (exists_tryFrom_slug_iff "allow" hname (by decide) (by decide) rfl
    (by decide)).trans ?_
  rw [hlen]
  constructor
  · rintro ⟨hword, hle⟩
    exact ⟨hword, by omega⟩
  · rintro ⟨hword, hle⟩
    exact ⟨hword, by omega⟩

theorem PlainName.exists_tryFrom_deny (h : PlainName command) (hname : RustIdentifier X command) :
    ∃ id, Identifier.tryFrom (denyIdentifier command) = .ok id := by
  have hlen : (bytes "deny").length = 4 := by decide
  refine (exists_tryFrom_slug_iff "deny" hname (by decide) (by decide) rfl
    (by decide)).mpr ⟨h.word, ?_⟩
  have hle := h.length
  omega

theorem memberGrants_generated {commands : List String}
    (hnames : ∀ command ∈ commands, RustIdentifier X command) {acl : Manifests} {node : SetNode}
    {before after : List PermissionFile} (hman : node.manifest = Manifest.new (before ++
      (autogenerateCommandPermissions commands).files.map Prod.snd ++ after))
    (hcmd : command ∈ commands) (p : Permission)
    (hp : p = allowPermission command ∨ p = denyPermission command)
    (haft : ∀ q, (p.identifier, q) ∉ declaredPermissions after)
    (hacc : ∃ id, Identifier.tryFrom p.identifier = .ok id) :
    MemberGrants acl node p.identifier p.commands := by
  obtain ⟨id, hid⟩ := hacc
  have hperm : node.manifest.permissions[p.identifier]? = some p := by
    rw [hman]
    refine getElem?_permissions_new ?_ (fun q hq => ?_) haft
    · exact mem_declared_generated.mpr ⟨command, hcmd, rfl, hp⟩
    · exact eq_of_declared_generated hnames hcmd hp hq
  have hslug : ':' ∉ (slugify command).toList := colon_not_mem_slugify (hnames command hcmd)
  refine memberGrants_of_local (tryFrom_eq_ok.mp hid) ?_ ?_ hperm
  · rcases hp with rfl | rfl
    · simp [allowPermission, allowIdentifier, String.toList_append, hslug]
    · simp [denyPermission, denyIdentifier, String.toList_append, hslug]
  · intro hdef
    -- the third letters of `allow` and `deny` are not the one of `default`
    have hthird := congrArg (fun s => s.toList[2]?) hdef
    rcases hp with rfl | rfl
    · simp [allowPermission, allowIdentifier, String.toList_append] at hthird
    · simp [denyPermission, denyIdentifier, String.toList_append] at hthird

/-- **Generated permissions.** For a list of Rust names, the permissions that are generated can be
used exactly when every name is plain. -/
theorem autogeneratedUsable_iff (X : UnicodeXid) (commands : List String)
    (hnames : ∀ command ∈ commands, RustIdentifier X command) :
    AutogeneratedUsable commands ↔ ∀ command ∈ commands, PlainName command := by
  have hgen := autogenerateCommandPermissions_eq commands
  constructor
  · intro h command hcmd
    refine (exists_tryFrom_allow_iff (hnames command hcmd)).mp (h.accepted _ ?_)
    rw [hgen]
    exact mem_append_left _ (mem_map_of_mem hcmd)
  · intro hplain
    have hallow : ∀ command ∈ commands,
        ∃ id, tryFrom (allowIdentifier command) = .ok id :=
      fun command hcmd =>
        (exists_tryFrom_allow_iff (hnames command hcmd)).mpr (hplain command hcmd)
    have hdeny : ∀ command ∈ commands,
        ∃ id, tryFrom (denyIdentifier command) = .ok id :=
      fun command hcmd =>
        (hplain command hcmd).exists_tryFrom_deny (hnames command hcmd)
    refine ⟨?_, ?_, ?_⟩
    · grind
    · intro command hcmd command' hcmd' hne
      have hslug : slugify command ≠ slugify command' := fun heq =>
        hne (eq_of_slugify_eq ((hnames _ hcmd).not_mem (by decide) rfl rfl (by decide))
          ((hnames _ hcmd').not_mem (by decide) rfl rfl (by decide)) heq)
      exact ⟨fun heq => hslug ((String.append_right_inj _).mp heq),
        fun heq => hslug ((String.append_right_inj _).mp heq)⟩
    · intro acl node before after haft hman command hcmd
      constructor
      · exact memberGrants_generated hnames hman hcmd (allowPermission command)
          (.inl rfl) (fun q => (haft command hcmd q).1) (hallow command hcmd)
      · exact memberGrants_generated hnames hman hcmd (denyPermission command)
          (.inr rfl) (fun q => (haft command hcmd q).2) (hdeny command hcmd)

namespace Sample

/-- The character classes of a language with ASCII names. -/
def asciiXid : UnicodeXid where
  isStart := Char.isAlpha
  isContinue c := c.isAlphanum || c == '_'
  start_ascii _ _ := rfl
  continue_ascii _ _ := rfl

theorem rustIdentifier_openFile : RustIdentifier asciiXid "open_file" :=
  ⟨'o', ['p', 'e', 'n', '_', 'f', 'i', 'l', 'e'], rfl, .inl (by decide),
    all_eq_true.mp rfl⟩

theorem rustIdentifier_hidden : RustIdentifier asciiXid "_hidden" :=
  ⟨'_', ['h', 'i', 'd', 'd', 'e', 'n'], rfl, .inr ⟨rfl, by decide⟩, all_eq_true.mp rfl⟩

theorem rustIdentifier_openTwice : RustIdentifier asciiXid "open__file" :=
  ⟨'o', ['p', 'e', 'n', '_', '_', 'f', 'i', 'l', 'e'], rfl, .inl (by decide),
    all_eq_true.mp rfl⟩

/-- A set of the manifest made for the command `_hidden`. -/
def hiddenNode : SetNode where
  permissionId := ⟨"notes:all", some 5, by decide⟩
  manifest := Manifest.new [commandFile "_hidden"]
  set := ⟨"all", [allowIdentifier "_hidden"]⟩

end Sample

/-- The permissions of `open_file` can be used. -/
theorem sample_autogenerated_openFile : AutogeneratedUsable ["open_file"] := by
  refine (autogeneratedUsable_iff Sample.asciiXid ["open_file"] ?_).mpr ?_
  · exact forall_mem_singleton.mpr Sample.rustIdentifier_openFile
  · have hlist : "open_file".toList = ['o', 'p', 'e', 'n', '_', 'f', 'i', 'l', 'e'] := rfl
    refine forall_mem_singleton.mpr ⟨?_, by decide⟩
    rw [hlist]
    exact (Jointed.cons_iff (by decide)).mpr (by decide)

/-- `_hidden` and `open__file` are Rust names, and their permissions are not identifiers: a set
with the first one stops the resolver. -/
theorem autogenerated_not_identifier :
    RustIdentifier Sample.asciiXid "_hidden" ∧ RustIdentifier Sample.asciiXid "open__file" ∧
      Identifier.tryFrom (allowIdentifier "_hidden") = .error .invalidFormat ∧
      Identifier.tryFrom (allowIdentifier "open__file") = .error .invalidFormat ∧
      setMember ∅ Sample.hiddenNode (allowIdentifier "_hidden") =
        .panic "invalid identifier in permission set?" :=
  ⟨Sample.rustIdentifier_hidden, Sample.rustIdentifier_openTwice, by decide, by decide, rfl⟩

end Tauri.Acl
