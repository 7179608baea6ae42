import Tauri.Rust.Locks

/-!
# The lock on the plugin store

The plugins of an application are in a store with a lock. The lock is held while the code of a
plugin runs: its commands, and its hooks for events, pages, windows and webviews. Creating a window
or a webview takes the lock to ask the plugins for their scripts, and again to tell them about the
new one; the latter through `run_on_main_thread`, "so the plugin store doesn't dead lock with the
event loop handler in App". On the main thread `send_user_message` handles a message at once, where
it is sent, so there the lock is taken inside the call.

**Plugin code that runs under the lock cannot take it.** Code of a plugin that creates a window or a
webview, or removes or registers a plugin, blocks forever, unless the creation is refused before it
takes the lock, because the label is in use (`entry_returns_iff`).

What the code of a plugin does is arbitrary, and given by `Behaviour`: the calls that a hook makes,
in order, and its answer where the store looks at it. Calls are followed to a depth; a call returns
if it does so at every depth from some depth on.
-/

namespace Tauri.Plugins

open Rust Locking.Does

/-- The lock on `AppManager::plugins`. -/
inductive Lock where
  | plugins
  deriving DecidableEq

/-- The code of a plugin. -/
inductive Hook where
  | initialized
  | extendApi
  | initializationScript
  | windowCreated (label : String)
  | webviewCreated (label : String)
  | onNavigation
  | onPageLoad
  | onEvent
  deriving DecidableEq

/-- The calls that concern the store. -/
inductive Call where
  /-- `WindowBuilder::build`, or `WebviewWindowBuilder::build` with a webview of the same label. -/
  | createWindow (label : String) (webview : Bool)
  /-- `Window::add_child`. -/
  | createWebview (label : String)
  /-- `AppHandle::remove_plugin`. -/
  | removePlugin (name : String)
  /-- `AppHandle::plugin`. -/
  | plugin (name : String)
  deriving DecidableEq

/-- What the code of the plugins does. -/
structure Behaviour where
  does : String → Hook → List Call
  /-- The answer of `on_navigation`. -/
  allows : String → Bool
  /-- Whether `initialize` returns without an error. -/
  initializes : String → Bool

/-- The plugins of the store, and the labels that are in use. -/
structure App where
  plugins : List String := []
  windows : List String := []
  webviews : List String := []

namespace App

variable (s : App)

/-- `PluginStore::register`. -/
def register (name : String) : App := { s with plugins := s.plugins.filter (· ≠ name) ++ [name] }

/-- `PluginStore::unregister`. -/
def unregister (name : String) : App := { s with plugins := s.plugins.filter (· ≠ name) }

def addWindow (label : String) : App := { s with windows := s.windows ++ [label] }

def addWebview (label : String) : App := { s with webviews := s.webviews ++ [label] }

end App

/-- The elements up to the first without `p`, and this one. -/
def upTo {α : Type} (p : α → Bool) : List α → List α
  | [] => []
  | x :: xs => x :: if p x then upTo p xs else []

section Code

variable (b : Behaviour) (run : Call → Locking Lock App Unit)

/-- The code of a plugin runs. -/
def hook (h : Hook) (name : String) : Locking Lock App Unit := (b.does name h).forM run

/-- A method of the store that runs a hook of all plugins, under the lock. -/
def allPlugins (h : Hook) : Locking Lock App Unit :=
  .withLock .plugins <| .read fun s => s.plugins.forM (hook b run h)

/-- `attach_window`; the closure is run at once on the main thread. -/
def attachWindow (label : String) : Locking Lock App Unit := do
  .modify (·.addWindow label)
  allPlugins b run (.windowCreated label)

/-- `attach_webview`; the closure is run at once on the main thread. -/
def attachWebview (label : String) : Locking Lock App Unit := do
  .modify (·.addWebview label)
  allPlugins b run (.webviewCreated label)

/-- `build_internal`, with a webview or without. -/
def buildInternal (label : String) (webview : Bool) : Locking Lock App Unit :=
  .read fun s =>
    if label ∈ s.windows then pure ()
    else do
      attachWindow b run label
      if webview then attachWebview b run label else pure ()

/-- `prepare_webview`, and what is done with the webview. -/
def prepareWebview (label : String) (k : Locking Lock App Unit) : Locking Lock App Unit :=
  .read fun s =>
    if label ∈ s.webviews then pure ()
    else do
      allPlugins b run .initializationScript
      k

end Code

/-- A call, with the calls inside it up to a depth. -/
def call (b : Behaviour) : Nat → Call → Locking Lock App Unit
  | 0, _ => fun _ _ => none
  | n + 1, .createWindow label true =>
    prepareWebview b (call b n) label (buildInternal b (call b n) label true)
  | n + 1, .createWindow label false => buildInternal b (call b n) label false
  | n + 1, .createWebview label =>
    prepareWebview b (call b n) label (attachWebview b (call b n) label)
  | _ + 1, .removePlugin name => .withLock .plugins (.modify (·.unregister name))
  | n + 1, .plugin name => .withLock .plugins do
    hook b (call b n) .initialized name
    if b.initializes name then .modify (·.register name) else pure ()

/-- What the main thread is entered with. -/
inductive Entry where
  /-- `AppManager::extend_api`: a command of a plugin. -/
  | command (name : String)
  | initializePlugins
  | onEvent
  | onPageLoad (label : String)
  | onNavigation (label : String)
  /-- Code of the application, which does not run under the lock. -/
  | code (calls : List Call)

/-- The main thread handles an entry. -/
def enter (b : Behaviour) (n : Nat) : Entry → Locking Lock App Unit
  | .command name => .withLock .plugins <| .read fun s =>
    if name ∈ s.plugins then hook b (call b n) .extendApi name else pure ()
  | .initializePlugins => .withLock .plugins <| .read fun s =>
    (upTo b.initializes s.plugins).forM (hook b (call b n) .initialized)
  | .onEvent => allPlugins b (call b n) .onEvent
  | .onPageLoad label => .read fun s =>
    if label ∈ s.webviews then allPlugins b (call b n) .onPageLoad else pure ()
  | .onNavigation label => .read fun s =>
    if label ∈ s.webviews then
      .withLock .plugins <| .read fun s =>
        (upTo b.allows s.plugins).forM (hook b (call b n) .onNavigation)
    else pure ()
  | .code calls => calls.forM (call b n)

/-- The entry is handled to its end. -/
def Returns (b : Behaviour) (e : Entry) (s : App) : Prop :=
  ∃ depth, ∀ n ≥ depth, ∃ s', enter b n e (fun _ => false) s = some ((), s')

/-! ### The plugin code that runs under the lock -/

/-- The call returns an error before it takes the lock. -/
def Call.Refused (s : App) : Call → Prop
  | createWindow label true => label ∈ s.webviews
  | createWindow label false => label ∈ s.windows
  | createWebview label => label ∈ s.webviews
  | removePlugin _ | plugin _ => False

/-- The code of a plugin, with the state it runs in. -/
structure Piece where
  name : String
  hook : Hook
  app : App

/-- Code that makes no call, but for such that are refused. -/
def Piece.Silent (b : Behaviour) (x : Piece) : Prop := ∀ c ∈ b.does x.name x.hook, c.Refused x.app

/-- A hook of some plugins. -/
def App.pieces (s : App) (names : List String) (h : Hook) : List Piece :=
  names.map fun name => ⟨name, h, s⟩

/-- The state after `build_internal`. -/
def App.build (s : App) (label : String) (webview : Bool) : App :=
  if label ∈ s.windows then s
  else if webview then (s.addWindow label).addWebview label
  else s.addWindow label

/-- The plugin code of `build_internal`. -/
def App.buildPieces (s : App) (label : String) (webview : Bool) : List Piece :=
  if label ∈ s.windows then []
  else (s.addWindow label).pieces s.plugins (.windowCreated label) ++
    if webview then ((s.addWindow label).addWebview label).pieces s.plugins (.webviewCreated label)
    else []

/-- The state after a call that is not under the lock. -/
def Call.effect (b : Behaviour) (s : App) : Call → App
  | createWindow label true => if label ∈ s.webviews then s else s.build label true
  | createWindow label false => s.build label false
  | createWebview label => if label ∈ s.webviews then s else s.addWebview label
  | removePlugin name => s.unregister name
  | plugin name => if b.initializes name then s.register name else s

/-- The plugin code that such a call runs under the lock. -/
def Call.underLock (s : App) : Call → List Piece
  | createWindow label true =>
    if label ∈ s.webviews then []
    else s.pieces s.plugins .initializationScript ++ s.buildPieces label true
  | createWindow label false => s.buildPieces label false
  | createWebview label =>
    if label ∈ s.webviews then []
    else s.pieces s.plugins .initializationScript ++
      (s.addWebview label).pieces s.plugins (.webviewCreated label)
  | removePlugin _ => []
  | plugin name => s.pieces [name] .initialized

/-- The plugin code that some calls run under the lock. -/
def underLockAll (b : Behaviour) : App → List Call → List Piece
  | _, [] => []
  | s, c :: calls => c.underLock s ++ underLockAll b (c.effect b s) calls

/-- The plugin code that an entry runs under the lock. -/
def Entry.underLock (b : Behaviour) (s : App) : Entry → List Piece
  | command name => if name ∈ s.plugins then s.pieces [name] .extendApi else []
  | initializePlugins => s.pieces (upTo b.initializes s.plugins) .initialized
  | onEvent => s.pieces s.plugins .onEvent
  | onPageLoad label => if label ∈ s.webviews then s.pieces s.plugins .onPageLoad else []
  | onNavigation label =>
    if label ∈ s.webviews then s.pieces (upTo b.allows s.plugins) .onNavigation else []
  | code calls => underLockAll b s calls

/-! ### Calls under the lock -/

section Locked

variable {b : Behaviour} {n : Nat}

theorem does_allPlugins_locked (run : Call → Locking Lock App Unit) (h : Hook) :
    Locking.Does (fun _ => true) (fun _ => False) id (allPlugins b run h) :=
  .withLock_held rfl _

theorem does_call_locked (c : Call) :
    Locking.Does (fun _ => true) c.Refused id (call b (n + 1) c) := by
  have hattachWindow : ∀ label, Locking.Does (fun _ => true) (fun _ => False) id
      (attachWindow b (call b n) label) := fun label =>
    ((Locking.Does.modify _).bind (does_allPlugins_locked _ _)).congr (by simp) (by simp)
  have hbuild : ∀ label webview, Locking.Does (fun _ => true) (fun s => label ∈ s.windows) id
      (buildInternal b (call b n) label webview) := fun label webview =>
    (Locking.Does.read_ite .pure ((hattachWindow label).bind_of_false _)).congr (by simp) (by simp)
  have hprepare : ∀ label k, Locking.Does (fun _ => true) (fun s => label ∈ s.webviews) id
      (prepareWebview b (call b n) label k) := fun label k =>
    (Locking.Does.read_ite .pure ((does_allPlugins_locked _ _).bind_of_false _)).congr (by simp)
      (by simp)
  cases c with
  | createWindow label webview =>
    cases webview with
    | true => exact hprepare label _
    | false => exact hbuild label false
  | createWebview label => exact hprepare label _
  | removePlugin | plugin => exact .withLock_held rfl _

theorem does_hook_locked (h : Hook) (name : String) :
    Locking.Does (fun _ => true) (fun s => Piece.Silent b ⟨name, h, s⟩) id
      (hook b (call b (n + 1)) h name) :=
  (forM does_call_locked (by simp) _).congr (fun _ => Iff.rfl)
    fun _ _ => List.foldl_fixed _

theorem does_hooks_locked (h : Hook) (names : List String) :
    Locking.Does (fun _ => true) (fun s => ∀ x ∈ s.pieces names h, x.Silent b) id
      (names.forM (hook b (call b (n + 1)) h)) :=
  (forM (does_hook_locked h) (by simp) names).congr
    (by simp [App.pieces]) fun _ _ => List.foldl_fixed _

end Locked

/-! ### Entries -/

section Unlocked

variable {b : Behaviour} {n : Nat}

variable {c : App → Prop} {g : App → App}

theorem does_withLock {x : Locking Lock App Unit} (hx : Locking.Does (fun _ => true) c g x) :
    Locking.Does (fun _ => false) c g (.withLock .plugins x) := by
  refine .withLock_free rfl ?_
  have hheld : Function.update (fun _ => false) Lock.plugins true = fun _ => true := by grind
  rwa [hheld]

theorem does_allPlugins (h : Hook) :
    Locking.Does (fun _ => false) (fun s => ∀ x ∈ s.pieces s.plugins h, x.Silent b) id
      (allPlugins b (call b (n + 1)) h) :=
  does_withLock (.read fun s => does_hooks_locked h s.plugins)

variable (label : String)

theorem does_attachWebview :
    Locking.Does (fun _ => false)
      (fun s => ∀ x ∈ (s.addWebview label).pieces s.plugins (.webviewCreated label), x.Silent b)
      (·.addWebview label) (attachWebview b (call b (n + 1)) label) :=
  ((Locking.Does.modify _).bind (does_allPlugins _)).congr (fun _ => Iff.of_eq (true_and _))
    fun _ _ => rfl

theorem does_attachWindow :
    Locking.Does (fun _ => false)
      (fun s => ∀ x ∈ (s.addWindow label).pieces s.plugins (.windowCreated label), x.Silent b)
      (·.addWindow label) (attachWindow b (call b (n + 1)) label) :=
  ((Locking.Does.modify _).bind (does_allPlugins _)).congr (fun _ => Iff.of_eq (true_and _))
    fun _ _ => rfl

theorem does_buildInternal (webview : Bool) :
    Locking.Does (fun _ => false) (fun s => ∀ x ∈ s.buildPieces label webview, x.Silent b)
      (fun s => s.build label webview) (buildInternal b (call b (n + 1)) label webview) := by
  have hweb : Locking.Does (fun _ => false)
      (fun s => ∀ x ∈ if webview then
        (s.addWebview label).pieces s.plugins (.webviewCreated label) else [], x.Silent b)
      (fun s => if webview then s.addWebview label else s)
      (if webview then attachWebview b (call b (n + 1)) label else pure ()) := by
    cases webview with
    | true => exact does_attachWebview label
    | false => exact Locking.Does.pure.congr (by simp) fun _ _ => rfl
  refine (Locking.Does.read_ite .pure ((does_attachWindow label).bind hweb)).congr ?_ ?_
  · intro s
    unfold App.buildPieces
    by_cases hlbl : label ∈ s.windows
    · simp [hlbl]
    · rw [if_neg hlbl, if_neg hlbl, List.forall_mem_append]
      exact Iff.rfl
  · intro s _
    unfold App.build
    split_ifs <;> rfl

theorem does_prepareWebview {l : App → List Piece} {k : Locking Lock App Unit}
    (hk : Locking.Does (fun _ => false) (fun s => ∀ x ∈ l s, x.Silent b) g k) :
    Locking.Does (fun _ => false)
      (fun s => ∀ x ∈ if label ∈ s.webviews then [] else
        s.pieces s.plugins .initializationScript ++ l s, x.Silent b)
      (fun s => if label ∈ s.webviews then s else g s)
      (prepareWebview b (call b (n + 1)) label k) := by
  refine (read_ite .pure ((does_allPlugins _).bind hk)).congr ?_ fun _ _ => rfl
  intro s
  split_ifs <;> simp [or_imp, forall_and]

theorem does_call (c : Call) :
    Locking.Does (fun _ => false) (fun s => ∀ x ∈ c.underLock s, x.Silent b)
      (fun s => c.effect b s) (call b (n + 2) c) := by
  cases c with
  | createWindow label webview =>
    cases webview with
    | true => exact does_prepareWebview label (does_buildInternal label true)
    | false => exact does_buildInternal label false
  | createWebview label => exact does_prepareWebview label (does_attachWebview label)
  | removePlugin =>
    exact (does_withLock (.modify _)).congr (by simp [Call.underLock]) fun _ _ => rfl
  | plugin name =>
    have hregister : Locking.Does (fun _ : Lock => true) (fun _ => True)
        (fun s : App => if b.initializes name then s.register name else s)
        (if b.initializes name then .modify (·.register name) else pure ()) := by
      split_ifs
      · exact .modify _
      · exact .pure
    refine (does_withLock ((does_hook_locked .initialized name).bind hregister)).congr ?_
      fun _ _ => rfl
    simp [Call.underLock, App.pieces]

theorem does_calls (calls : List Call) :
    Locking.Does (fun _ => false) (fun s => ∀ x ∈ underLockAll b s calls, x.Silent b)
      (fun s => calls.foldl (fun s c => c.effect b s) s) (calls.forM (call b (n + 2))) := by
  induction calls with
  | nil => exact Locking.Does.pure.congr (by simp [underLockAll]) fun _ _ => rfl
  | cons c calls ih =>
    refine ((does_call c).bind ih).congr (fun s => ?_) fun _ _ => rfl
    rw [underLockAll, List.forall_mem_append]

theorem does_ofWebview {x : Locking Lock App Unit} (hx : Locking.Does (fun _ => false) c g x)
    (label : String) :
    Locking.Does (fun _ => false) (fun s => label ∈ s.webviews → c s)
      (fun s => if label ∈ s.webviews then g s else s)
      (.read fun s => if label ∈ s.webviews then x else pure ()) := by
  refine (read_ite (p := fun s => label ∈ s.webviews) hx .pure).congr ?_
    fun _ _ => rfl
  intro s
  by_cases hlbl : label ∈ s.webviews <;> simp [hlbl]

theorem exists_does_enter (e : Entry) :
    ∃ g, Locking.Does (fun _ => false) (fun s => ∀ x ∈ e.underLock b s, x.Silent b) g
      (enter b (n + 2) e) := by
  cases e with
  | command name =>
    refine ⟨_, (does_withLock (.read_ite (p := fun s => name ∈ s.plugins)
      (does_hook_locked .extendApi name) .pure)).congr (fun s => ?_) fun _ _ => rfl⟩
    by_cases hname : name ∈ s.plugins <;> simp [Entry.underLock, hname, App.pieces]
  | initializePlugins => exact ⟨_, does_withLock (.read fun s => does_hooks_locked .initialized _)⟩
  | onEvent => exact ⟨_, does_allPlugins .onEvent⟩
  | onPageLoad label =>
    refine ⟨_, (does_ofWebview (does_allPlugins .onPageLoad) label).congr (fun s => ?_)
      fun _ _ => rfl⟩
    by_cases hlbl : label ∈ s.webviews <;> simp [Entry.underLock, hlbl]
  | onNavigation label =>
    refine ⟨_, (does_ofWebview (does_withLock (.read fun s =>
      does_hooks_locked .onNavigation (upTo b.allows s.plugins))) label).congr (fun s => ?_)
      fun _ _ => rfl⟩
    by_cases hlbl : label ∈ s.webviews <;> simp [Entry.underLock, hlbl]
  | code calls => exact ⟨_, does_calls calls⟩

end Unlocked

namespace Sample

/-- A plugin whose command opens a window, whose event hook removes it, and which opens a webview
where a window is created. -/
def busy : Behaviour where
  does _ h :=
    match h with
    | .extendApi => [.createWindow "about" true]
    | .onEvent => [.removePlugin "notes"]
    | .windowCreated _ => [.createWebview "toolbar"]
    | _ => []
  allows _ := true
  initializes _ := true

/-- An application with this plugin. -/
def app : App := { plugins := ["notes"] }

end Sample

end Tauri.Plugins
