import Tauri.Acl.Grammar
import Tauri.Acl.References
import Tauri.Acl.Tables

/-!
# Command strings

The resolved tables are keyed by command strings, which `commandName` makes out of a manifest key
and the name of a command: a command of the application is its own string, and a command of a
plugin is `plugin:<key>|<command>`, where the key of a core plugin loses its `core:`. A key holds
no `|`, so the string determines the plugin name and the command. **It does not determine the
key**: `core:window` and `window` have the same plugin name, and the application may call a
command `plugin:window|close`.
-/

namespace Tauri.Acl

open Rust List

/-- The keys under which a permission identifier can refer to a manifest. -/
def ManifestKey (key : String) : Prop :=
  key = appAclKey ∨ ∃ id : Identifier, id.getPrefix = some key

/-- The name of the plugin in a command string: a core plugin loses its `core:`. -/
def pluginName (key : String) : String := (stripPrefix "core:" key).getD key

theorem commandName_of_app (command : String) : commandName appAclKey command = command :=
  if_pos rfl

theorem commandName_of_ne_app {key : String} (h : key ≠ appAclKey) (command : String) :
    commandName key command = "plugin:" ++ pluginName key ++ "|" ++ command := by
  rw [commandName, if_neg h, pluginName]
  cases stripPrefix "core:" key <;> rfl

theorem ManifestKey.bar_not_mem {key : String} (h : ManifestKey key) : '|' ∉ key.toList := by
  rcases h with rfl | ⟨id, hid⟩
  · decide
  · intro hbar
    have hmem : '|' ∈ id.inner.toList := by
      rw [(id.inner_eq_of_getPrefix hid).1, String.toList_append, String.toList_append]
      exact mem_append_left _ (mem_append_left _ hbar)
    obtain ⟨b, hb, heq⟩ := id.char_of_mem hmem
    -- the bar is the byte 124, which is no letter or digit
    have hbyte : Char.ofNat (124 : UInt8).toNat = Char.ofNat b.toNat := heq
    rw [← ofNat_injective_of_ascii (by decide) hb.lt_128 hbyte] at hb
    rcases hb with hb | hb | hb <;> revert hb <;> decide

theorem ManifestKey.bar_not_mem_pluginName {key : String} (h : ManifestKey key) :
    '|' ∉ (pluginName key).toList := by
  unfold pluginName
  cases hcore : stripPrefix "core:" key with
  | none => exact h.bar_not_mem
  | some =>
    intro hbar
    refine h.bar_not_mem ?_
    rw [stripPrefix_eq_some.mp hcore, String.toList_append]
    exact mem_append_right _ hbar

/-- **A plugin command string determines the plugin name and the command.** -/
theorem plugin_string_inj {name name' command command' : String} (h : '|' ∉ name.toList)
    (h' : '|' ∉ name'.toList)
    (heq : "plugin:" ++ name ++ "|" ++ command = "plugin:" ++ name' ++ "|" ++ command') :
    name = name' ∧ command = command' := by
  have hcut : ∀ {n c : String}, '|' ∉ n.toList →
      splitOnce '|' ("plugin:" ++ n ++ "|" ++ c) = some ("plugin:" ++ n, c) := by
    intro n c hn
    refine splitOnce_eq_some.mpr ⟨by simp [String.toList_append], ?_⟩
    rw [String.toList_append, mem_append, not_or]
    exact ⟨by decide, hn⟩
  have hpair := (hcut h).symm.trans (heq ▸ hcut h')
  simp only [Option.some.injEq, Prod.mk.injEq] at hpair
  refine ⟨String.toList_injective ?_, hpair.2⟩
  have hlist := congrArg String.toList hpair.1
  rw [String.toList_append, String.toList_append] at hlist
  exact append_cancel_left hlist

/-- Two commands have the same string when both are commands of the application, when their
plugins have the same name, and when the application calls a command like a plugin command. -/
theorem commandName_eq_iff {key key' command command' : String} (hkey : ManifestKey key)
    (hkey' : ManifestKey key') : commandName key command = commandName key' command' ↔
      (key = appAclKey ∧ key' = appAclKey ∧ command = command') ∨
      (key ≠ appAclKey ∧ key' ≠ appAclKey ∧ pluginName key = pluginName key' ∧
        command = command') ∨
      (key = appAclKey ∧ key' ≠ appAclKey ∧
        command = "plugin:" ++ pluginName key' ++ "|" ++ command') ∨
      (key ≠ appAclKey ∧ key' = appAclKey ∧
        command' = "plugin:" ++ pluginName key ++ "|" ++ command) := by
  by_cases happ : key = appAclKey
  · by_cases happ' : key' = appAclKey
    · simp [happ, happ', commandName_of_app]
    · rw [happ, commandName_of_app, commandName_of_ne_app happ']
      simp [happ']
  · by_cases happ' : key' = appAclKey
    · rw [happ', commandName_of_app, commandName_of_ne_app happ]
      simp [happ, eq_comm]
    · rw [commandName_of_ne_app happ, commandName_of_ne_app happ']
      simp only [ne_eq, happ, happ', false_and, not_false_eq_true, true_and, or_false, false_or]
      refine ⟨plugin_string_inj hkey.bar_not_mem_pluginName hkey'.bar_not_mem_pluginName, ?_⟩
      rintro ⟨hname, rfl⟩
      rw [hname]

/-! ### Commands of different manifests -/

/-- What keeps the strings of some commands apart: no two plugins with the same name have a
command of the same name, and no command of the application is called like a plugin command. -/
structure NamesApart (commands : Set (String × String)) : Prop where
  plugins : ∀ key key' command, (key, command) ∈ commands → (key', command) ∈ commands →
    key ≠ appAclKey → key' ≠ appAclKey → pluginName key = pluginName key' → key = key'
  app : ∀ key command command', (appAclKey, command) ∈ commands → (key, command') ∈ commands →
    key ≠ appAclKey → command ≠ "plugin:" ++ pluginName key ++ "|" ++ command'

theorem injOn_commandName_iff {commands : Set (String × String)}
    (hkeys : ∀ kc ∈ commands, ManifestKey kc.1) :
    Set.InjOn (fun kc : String × String => commandName kc.1 kc.2) commands ↔
      NamesApart commands := by
  constructor
  · intro hinj
    refine ⟨fun key key' command h h' hne hne' hname => ?_,
      fun key command command' h h' hne heq => ?_⟩
    · have hpair := hinj h h' ((commandName_eq_iff (hkeys _ h) (hkeys _ h')).mpr
        (.inr (.inl ⟨hne, hne', hname, rfl⟩)))
      exact congrArg Prod.fst hpair
    · have hpair := hinj h h' ((commandName_eq_iff (hkeys _ h) (hkeys _ h')).mpr
        (.inr (.inr (.inl ⟨rfl, hne, heq⟩))))
      exact hne (congrArg Prod.fst hpair).symm
  · rintro hapart ⟨key, command⟩ h ⟨key', command'⟩ h' heq
    rcases (commandName_eq_iff (hkeys _ h) (hkeys _ h')).mp heq with ⟨h1, h2, h3⟩ |
      ⟨hne, hne', hname, hcmd⟩ | ⟨happ, hne', hcmd⟩ | ⟨hne, happ', hcmd⟩
    · simp_all
    · obtain rfl : command = command' := hcmd
      obtain rfl := hapart.plugins key key' command h h' hne hne' hname
      rfl
    · obtain rfl : key = appAclKey := happ
      exact absurd hcmd (hapart.app key' command command' h h' hne')
    · obtain rfl : key' = appAclKey := happ'
      exact absurd hcmd (hapart.app key command' command h' h hne)

/-- The commands that the permissions of an access control list name. -/
def aclCommands (acl : Manifests) : Set (String × String) :=
  {kc | ∃ manifest, acl[kc.1]? = some manifest ∧ ∃ (name : String) (p : Permission),
    manifest.permissions[name]? = some p ∧ kc.2 ∈ p.commands.allow ++ p.commands.deny}

section Tables

variable {G P : Type} (E : Patterns G P)

/-- A permission of the manifest `key` that some active capability reaches names the command. -/
def GrantedBy (acl : Manifests) (capabilities : Capabilities) (target : Target)
    (select : Commands → List String) (key command : String) : Prop :=
  ∃ c ∈ activeCapabilities capabilities target, ∃ e ∈ c.permissions, ∃ t : TraversedPermission,
    EntryReaches acl e.identifier t ∧ t.permission.isActive target ∧ t.key = key ∧
      command ∈ select t.permission.commands

/-- An entry of a table was pushed for a reached permission that names a command with its
string. -/
theorem exists_reached_of_mem_valuesAt (select : Commands → List String) {items : List Reached}
    {string : String} {rc : ResolvedCommand G P}
    (h : rc ∈ valuesAt string ((numberFrom 0 items).flatMap (commandPushes E select))) :
    ∃ it ∈ items, ∃ command ∈ select it.traversed.permission.commands,
      commandName it.traversed.key command = string := by
  rw [mem_valuesAt, mem_flatMap] at h
  obtain ⟨ni, hni, hpush⟩ := h
  simp only [commandPushes, mem_flatMap, mem_map, Prod.mk.injEq] at hpush
  obtain ⟨command, hcmd, _, _, hstring, -⟩ := hpush
  refine ⟨ni.2, ?_, command, hcmd, hstring⟩
  rw [← map_snd_numberFrom 0 items]
  exact mem_map_of_mem hni

/-- **Permissions act on their own manifest** where the strings are apart: an entry under the
string of a command stems from a permission of the manifest of the command. -/
theorem grantedBy_of_mem_valuesAt {acl : Manifests} {capabilities : Capabilities}
    {target : Target} {items : List Reached} (hitems : ReachedInOrder acl capabilities target items)
    {commands : Set (String × String)} (hkeys : ∀ kc ∈ commands, ManifestKey kc.1)
    (hapart : NamesApart commands) (hacl : aclCommands acl ⊆ commands)
    {select : Commands → List String}
    (hselect : ∀ c : Commands, ∀ command ∈ select c, command ∈ c.allow ++ c.deny)
    {key command : String} (hcmd : (key, command) ∈ commands) {rc : ResolvedCommand G P}
    (h : rc ∈ valuesAt (commandName key command)
      ((numberFrom 0 items).flatMap (commandPushes E select))) :
    GrantedBy acl capabilities target select key command := by
  obtain ⟨it, hit, command', hcmd', hstring⟩ := exists_reached_of_mem_valuesAt E select h
  obtain ⟨hc, he, hreach, hact⟩ := hitems.mem_iff.mp hit
  obtain ⟨manifest, hm, hp⟩ := hreach.declared
  have hmem : (it.traversed.key, command') ∈ commands :=
    hacl ⟨manifest, hm, it.traversed.permissionName, it.traversed.permission, hp,
      hselect _ _ hcmd'⟩
  have hpair := (injOn_commandName_iff hkeys).mpr hapart hmem hcmd hstring
  simp only [Prod.mk.injEq] at hpair
  obtain ⟨hkey, rfl⟩ := hpair
  exact ⟨it.capability, hc, it.entry, he, it.traversed, hreach, hact, hkey, hcmd'⟩

/-- **When command strings do not collide.** The string is injective on some commands of manifests
that identifiers can refer to exactly when no two plugins with one name have a command in common
and no command of the application is called like one of a plugin. Then every entry of the
resolved tables under the string of a command stems from a permission of its own manifest. -/
theorem commandName_injOn_iff_apart {commands : Set (String × String)}
    (hkeys : ∀ kc ∈ commands, ManifestKey kc.1) :
    (Set.InjOn (fun kc : String × String => commandName kc.1 kc.2) commands ↔
      NamesApart commands) ∧
    (NamesApart commands → ∀ (acl : Manifests) (capabilities : Capabilities) (target : Target)
      (r : Resolved G P), Resolves E acl capabilities target r → aclCommands acl ⊆ commands →
      ∀ key command : String, (key, command) ∈ commands →
        (∀ rc ∈ r.allowedCommands[commandName key command]?.getD [],
          GrantedBy acl capabilities target (·.allow) key command) ∧
        ∀ rc ∈ r.deniedCommands[commandName key command]?.getD [],
          GrantedBy acl capabilities target (·.deny) key command) := by
  refine ⟨injOn_commandName_iff hkeys, ?_⟩
  intro hapart acl capabilities target r hr hacl key command hcmd
  obtain ⟨items, hitems, -, rfl⟩ := (resolves_iff E).mp hr
  refine ⟨fun rc hrc => ?_, fun rc hrc => ?_⟩
  · rw [getD_allowedCommands_tables] at hrc
    exact grantedBy_of_mem_valuesAt E hitems hkeys hapart hacl
      (fun c command h => mem_append_left _ h) hcmd hrc
  · rw [getD_deniedCommands_tables] at hrc
    exact grantedBy_of_mem_valuesAt E hitems hkeys hapart hacl
      (fun c command h => mem_append_right _ h) hcmd hrc

end Tables

namespace Sample

def windowDefault : Identifier := ⟨"window:default", some 6, by decide⟩

def coreWindowDefault : Identifier := ⟨"core:window:default", some 11, by decide⟩

theorem manifestKey_coreWindow : ManifestKey "core:window" := .inr ⟨coreWindowDefault, by decide⟩

/-- A command of a core plugin and one of the application. -/
def windowCommands : Set (String × String) := {("core:window", "close"), (appAclKey, "greet")}

/-- The strings of the two commands differ, and each is granted by its own manifest. -/
theorem commandName_injOn_windowCommands :
    Set.InjOn (fun kc : String × String => commandName kc.1 kc.2) windowCommands ∧
    ∀ (acl : Manifests) (capabilities : Capabilities) (target : Target)
      (r : Resolved String String), Resolves literalPatterns acl capabilities target r →
      aclCommands acl ⊆ windowCommands →
      ∀ rc ∈ r.allowedCommands[commandName "core:window" "close"]?.getD [],
        GrantedBy acl capabilities target (·.allow) "core:window" "close" := by
  have hkeys : ∀ kc ∈ windowCommands, ManifestKey kc.1 := by
    rintro kc (rfl | rfl)
    · exact manifestKey_coreWindow
    · exact .inl rfl
  have hapart : NamesApart windowCommands := by
    constructor
    · rintro key key' command (h | h) (h' | h') hne hne' -
      all_goals simp_all
    · rintro key command command' (h | h) (h' | h') hne
      all_goals simp_all
      all_goals decide
  obtain ⟨hinj, hgranted⟩ := commandName_injOn_iff_apart literalPatterns hkeys
  exact ⟨hinj.mpr hapart, fun acl capabilities target r hr hacl =>
    (hgranted hapart acl capabilities target r hr hacl _ _ (.inl rfl)).1⟩

/-- A plugin `window` shares its command strings with the core plugin, and the application can
call a command like one of a plugin. -/
theorem commandName_collides :
    ¬ Set.InjOn (fun kc : String × String => commandName kc.1 kc.2) {kc | ManifestKey kc.1} ∧
    commandName "core:window" "close" = commandName "window" "close" ∧
    commandName appAclKey "plugin:window|close" = commandName "window" "close" := by
  have hcore : commandName "core:window" "close" = commandName "window" "close" := by decide
  refine ⟨fun hinj => ?_, hcore, by decide⟩
  have hmem : ("core:window", "close") ∈ {kc : String × String | ManifestKey kc.1} :=
    manifestKey_coreWindow
  have hmem' : ("window", "close") ∈ {kc : String × String | ManifestKey kc.1} :=
    .inr ⟨windowDefault, by decide⟩
  exact absurd (congrArg Prod.fst (hinj hmem hmem' hcore)) (by decide)

end Sample

end Tauri.Acl
