import Tauri.Ipc.Access
import Tauri.Ipc.AccessMessage
import Tauri.Webview.Origin

/-!
# Dispatching IPC messages

`onMessage` is the reference monitor of the IPC: it checks the invoke key, classifies the page,
asks the runtime authority, and only then hands the message to a plugin or to the application's
command handler. Handlers are arbitrary: a function of the message and of the application state
that says whether it handled the message, which replies it sent through the resolver, and the
state it left.

The result records **which handlers ran and which calls the responder received**, so that
mediation and the exactly-once reply are statements about every request. Authorisation is
decided on the whole command string and execution on its pieces; `pluginCommand_eq` relates the
two.
-/

namespace Tauri

open Rust Acl Ipc Filter List Outcome

/-- The labels of a webview and of its window. -/
structure Webview where
  label : String
  window : String
  deriving DecidableEq

namespace Webview

/-! ### Requests, replies and handlers -/

/-- The values of the request headers, by lower-case name. -/
abbrev Headers := List (String × List UInt8)

/-- `InvokeRequest`, with payloads of the type `B`. -/
structure InvokeRequest (B : Type) where
  cmd : String
  callback : UInt32
  error : UInt32
  url : Url
  body : B
  headers : Headers
  invokeKey : String

/-- `InvokeResponse`, with bodies of the type `R`; an error is given by its text. -/
inductive InvokeResponse (R : Type) where
  | ok (body : R)
  | err (error : String)
  deriving DecidableEq

/-- A call of the responder. -/
structure ResponderCall (R : Type) where
  webview : Webview
  cmd : String
  response : InvokeResponse R
  callback : UInt32
  error : UInt32
  deriving DecidableEq

/-- `Invoke`: the message and the resolved access it was granted. -/
structure Invoke (G P B : Type) where
  webview : Webview
  command : String
  payload : B
  headers : Headers
  acl : Option (List (ResolvedCommand G P))

/-- What a handler did: whether it handled the message, its replies through the resolver, in
order, and the application state it left. -/
structure Handled (R σ : Type) where
  handled : Bool
  replies : List (InvokeResponse R)
  state : σ

/-- A command handler. -/
abbrev Handler (G P B R σ : Type) := Invoke G P B → σ → Handled R σ

/-- A plugin of the store. -/
structure Plugin (G P B R σ : Type) where
  name : String
  extendApi : Handler G P B R σ

/-- The application a message is dispatched in. -/
structure App (G P : Type) (S : ScopeTypes) (B R σ : Type) where
  manager : AppManager
  invokeKey : String
  authority : RuntimeAuthority G P S
  plugins : List (Plugin G P B R σ)
  invokeHandler : Handler G P B R σ
  debugAssertions : Bool

/-- A handler that ran, with the command it was given. -/
inductive HandlerCall where
  | plugin (name command : String)
  | app (command : String)
  deriving DecidableEq

/-- The effects of dispatching a message. `calls` is not a value where computing the denial
message does not return, or where a second reply panics. -/
structure Dispatched (R σ : Type) where
  handlers : List HandlerCall
  calls : Outcome Error (List (ResponderCall R))
  state : σ

/-- `FETCH_CHANNEL_DATA_COMMAND`. -/
def fetchChannelDataCommand : String := "plugin:__TAURI_CHANNEL__|fetch"

/-- The plugin and the command that a command string names: the first two pieces between `|`
behind the prefix `plugin:`; a missing command is empty. -/
def pluginCommand (cmd : String) : Option (String × String) :=
  (stripPrefix "plugin:" cmd).map fun rawCommand =>
    let tokens := split '|' rawCommand
    (tokens.head?.getD "", tokens.tail.head?.getD "")

section Dispatch

variable {G P B R σ : Type} {S : ScopeTypes}

/-- `InvokeResolver::return_result`: the responder is taken by the first reply. -/
def returnResult (webview : Webview) (request : InvokeRequest B)
    (calls : List (ResponderCall R)) (response : InvokeResponse R) :
    Outcome Error (List (ResponderCall R)) :=
  if calls.isEmpty then
    .ok [{ webview, cmd := request.cmd, response, callback := request.callback
           error := request.error }]
  else .panic "resolver consumed"

/-- `PluginStore::extend_api`: the handlers that ran and what happened. -/
def extendApi (plugins : List (Plugin G P B R σ)) (plugin : String) (invoke : Invoke G P B)
    (s : σ) : List HandlerCall × Handled R σ :=
  match plugins.find? fun p => p.name == plugin with
  | some p => ([.plugin plugin invoke.command], p.extendApi invoke s)
  | none => ([], ⟨true, [.err ("plugin " ++ plugin ++ " not found")], s⟩)

/-- The replies of a message: those of the handler, and a rejection where it was not handled. -/
def replies (command : String) (h : Handled R σ) : List (InvokeResponse R) :=
  h.replies ++ if h.handled then [] else [.err ("Command " ++ command ++ " not found")]

/-- The effects of handing a message over: the replies go through the resolver. -/
def handOver (webview : Webview) (request : InvokeRequest B) (command : String)
    (ran : List HandlerCall × Handled R σ) : Dispatched R σ :=
  ⟨ran.1, (replies command ran.2).foldlM (returnResult webview request) [], ran.2.state⟩

variable (U : UrlCrate) (T : Texts G P) (E : Patterns G P)

/-- The access decision of a request. -/
def resolvedAcl (app : App G P S B R σ) (webview : Webview) (request : InvokeRequest B) :
    Option (List (ResolvedCommand G P)) :=
  app.authority.resolveAccess E request.cmd webview.window webview.label
    (app.manager.aclOrigin U request.url)

/-- The message of a request, with its access decision. -/
def invokeOf (app : App G P S B R σ) (webview : Webview) (request : InvokeRequest B) :
    Invoke G P B where
  webview := webview
  command := request.cmd
  payload := request.body
  headers := request.headers
  acl := resolvedAcl U E app webview request

/-- The text a request without access is rejected with. -/
def rejection (fuel : Nat) (app : App G P S B R σ) (webview : Webview)
    (request : InvokeRequest B) : Outcome Error String :=
  if app.debugAssertions then
    let (key, commandName) := (pluginCommand request.cmd).getD (appAclKey, request.cmd)
    app.authority.resolveAccessMessage T E fuel key commandName webview.window webview.label
      (app.manager.aclOrigin U request.url)
  else .ok ("Command " ++ request.cmd ++ " not allowed by ACL")

/-- `Webview::on_message`, on the desktop. -/
def onMessage (fuel : Nat) (app : App G P S B R σ) (webview : Webview)
    (request : InvokeRequest B) (s : σ) : Dispatched R σ :=
  if request.invokeKey ≠ app.invokeKey then ⟨[], .ok [], s⟩
  else
    let invoke := invokeOf U E app webview request
    if ((pluginCommand request.cmd).isSome || app.authority.hasAppManifest) &&
        request.cmd != fetchChannelDataCommand && invoke.acl.isNone then
      ⟨[], rejection U T E fuel app webview request >>= fun message =>
        returnResult webview request [] (.err message), s⟩
    else
      match pluginCommand request.cmd with
      | some (plugin, commandName) =>
        handOver webview request commandName
          (extendApi app.plugins plugin { invoke with command := commandName } s)
      | none =>
        handOver webview request request.cmd ([.app request.cmd], app.invokeHandler invoke s)

/-! ### Authorised and executed commands -/

theorem pluginCommand_eq {cmd plugin command : String}
    (h : pluginCommand cmd = some (plugin, command)) :
    (cmd = "plugin:" ++ plugin ∧ command = "") ∨
      ∃ name, cmd = "plugin:" ++ plugin ++ "|" ++ name ∧
        command = (split '|' name).head?.getD "" := by
  obtain ⟨raw, hraw, hpair⟩ := Option.map_eq_some_iff.mp h
  obtain rfl := stripPrefix_eq_some.mp hraw
  obtain ⟨rfl, rfl⟩ := Prod.mk.inj hpair
  cases hsplit : splitOnce '|' raw with
  | none =>
    rw [split_of_not_mem (splitOnce_eq_none.mp hsplit)]
    exact .inl ⟨rfl, rfl⟩
  | some ab =>
    obtain ⟨a, name⟩ := ab
    have hps : raw = a ++ "|" ++ name := by
      apply String.toList_injective
      rw [(splitOnce_eq_some.mp hsplit).1, String.toList_append, String.toList_append, append_assoc]
      rfl
    rw [split_of_splitOnce hsplit]
    refine .inr ⟨name, ?_, rfl⟩
    rw [hps, String.append_assoc, String.append_assoc, String.append_assoc]
    rfl

/-! ### The branches of the dispatcher -/

/-- The request may be handed to a handler. -/
def Permitted (app : App G P S B R σ) (webview : Webview) (request : InvokeRequest B) : Prop :=
  (resolvedAcl U E app webview request).isSome ∨ request.cmd = fetchChannelDataCommand ∨
    (pluginCommand request.cmd = none ∧ app.authority.hasAppManifest = false)

variable {app : App G P S B R σ} {webview : Webview} {request : InvokeRequest B} {s : σ}

theorem onMessage_of_ne {fuel : Nat} (hkey : request.invokeKey ≠ app.invokeKey) :
    onMessage U T E fuel app webview request s = ⟨[], .ok [], s⟩ := by
  rw [onMessage, if_pos hkey]

/-- **A request with the expected key is rejected, or permitted and handed to one handler.** -/
theorem onMessage_cases {fuel : Nat} (hkey : request.invokeKey = app.invokeKey) :
    (onMessage U T E fuel app webview request s =
      ⟨[], rejection U T E fuel app webview request >>= fun message =>
        returnResult webview request [] (.err message), s⟩) ∨
    Permitted U E app webview request ∧
      ((∃ plugin command, pluginCommand request.cmd = some (plugin, command) ∧
        onMessage U T E fuel app webview request s =
          handOver webview request command (extendApi app.plugins plugin
            { invokeOf U E app webview request with command } s)) ∨
      (pluginCommand request.cmd = none ∧ onMessage U T E fuel app webview request s =
        handOver webview request request.cmd ([.app request.cmd],
          app.invokeHandler (invokeOf U E app webview request) s))) := by
  simp only [onMessage, hkey, ne_eq, not_true_eq_false, if_false]
  split_ifs with href
  · exact .inl rfl
  · have hpermitted : Permitted U E app webview request := by
      simp only [Bool.and_eq_true, Bool.or_eq_true, bne_iff_ne, Option.isSome_iff_ne_none,
        Option.isNone_iff_eq_none] at href
      unfold Permitted
      rw [Option.isSome_iff_ne_none]
      by_contra hcon
      simp only [not_or, not_not, not_and, Bool.not_eq_false] at hcon
      refine href ⟨⟨?_, hcon.2.1⟩, hcon.1⟩
      by_cases hplug : pluginCommand request.cmd = none
      · exact .inr (hcon.2.2 hplug)
      · exact .inl hplug
    refine .inr ⟨hpermitted, ?_⟩
    cases hplug : pluginCommand request.cmd with
    | none => exact .inr ⟨rfl, rfl⟩
    | some pc => exact .inl ⟨pc.1, pc.2, rfl, rfl⟩

/-! ### Mediation and the exactly-once reply -/

/-- The handler replies exactly once where it handles the message, and never otherwise. -/
def RepliesOnce (handler : Handler G P B R σ) : Prop :=
  ∀ invoke s, if (handler invoke s).handled then (handler invoke s).replies.length = 1
    else (handler invoke s).replies = []

theorem foldlM_returnResult_of_length {rs : List (InvokeResponse R)} (h : rs.length = 1) :
    ∃ call, rs.foldlM (returnResult webview request) [] = .ok [call] := by
  obtain ⟨response, rfl⟩ := length_eq_one_iff.mp h
  exact ⟨_, rfl⟩

theorem length_replies {handled : Handled R σ}
    (h : if handled.handled then handled.replies.length = 1 else handled.replies = [])
    (command : String) : (replies command handled).length = 1 := by
  unfold replies
  cases hhandled : handled.handled with
  | true =>
    rw [hhandled, if_pos rfl] at h
    simp [h]
  | false =>
    rw [hhandled, if_neg Bool.false_ne_true] at h
    simp [h]

theorem length_replies_extendApi {plugins : List (Plugin G P B R σ)}
    (h : ∀ p ∈ plugins, RepliesOnce p.extendApi) (plugin : String) (invoke : Invoke G P B) (s : σ) :
    (replies invoke.command (extendApi plugins plugin invoke s).2).length = 1 := by
  unfold extendApi
  cases hfind : plugins.find? fun p => p.name == plugin with
  | none => rfl
  | some p => exact length_replies (h p (mem_of_find?_eq_some hfind) invoke s) _

theorem mem_handlers_extendApi {plugins : List (Plugin G P B R σ)} {plugin : String}
    {invoke : Invoke G P B} {call : HandlerCall}
    (h : call ∈ (extendApi plugins plugin invoke s).1) : call = .plugin plugin invoke.command := by
  unfold extendApi at h
  cases hfind : plugins.find? fun p => p.name == plugin with
  | none => simp [hfind] at h
  | some p => simpa [hfind] using h

/-- The text of a rejection is computed, in debug builds where the permission sets are well
founded. -/
theorem eventually_rejection (h : app.debugAssertions = true → SetsWellFounded app.authority.acl)
    (webview : Webview) (request : InvokeRequest B) :
    ∀ᶠ fuel in atTop, ∃ message, rejection U T E fuel app webview request = .ok message := by
  unfold rejection
  cases hbuild : app.debugAssertions with
  | true => exact RuntimeAuthority.eventually_resolveAccessMessage T E (h hbuild) _ _ _ _ _
  | false => exact .of_forall fun _ => ⟨_, rfl⟩

/-- **Mediation and exactly-once reply.** A request with another key runs no handler and gets no
reply. For a request with the expected key:

* a handler runs only if access was resolved for the whole command string, or the command fetches
  channel data, or it is not a plugin command and the app has no manifest;
* the command string that was authorised for the plugin command `c` of the plugin `p` is
  `plugin:p|c`, or `plugin:p` with an empty `c`, where the command name has no `|`;
* the responder is called exactly once, if handlers reply as they should and, in a debug build,
  no permission sets refer to each other in a circle. -/
theorem onMessage_mediates (app : App G P S B R σ) (webview : Webview) (request : InvokeRequest B)
    (s : σ) :
    (request.invokeKey ≠ app.invokeKey → ∀ fuel,
      (onMessage U T E fuel app webview request s).handlers = [] ∧
      (onMessage U T E fuel app webview request s).calls = .ok []) ∧
    (request.invokeKey = app.invokeKey →
      (∀ fuel, ∀ call ∈ (onMessage U T E fuel app webview request s).handlers,
        (app.authority.resolveAccess E request.cmd webview.window webview.label
          (app.manager.aclOrigin U request.url)).isSome ∨
        request.cmd = fetchChannelDataCommand ∨
        (stripPrefix "plugin:" request.cmd = none ∧ app.authority.hasAppManifest = false)) ∧
      (∀ fuel p c, .plugin p c ∈ (onMessage U T E fuel app webview request s).handlers →
        (∀ name, request.cmd = "plugin:" ++ p ++ "|" ++ name → '|' ∉ name.toList) →
        request.cmd = "plugin:" ++ p ++ "|" ++ c ∨ (request.cmd = "plugin:" ++ p ∧ c = "")) ∧
      ((∀ p ∈ app.plugins, RepliesOnce p.extendApi) → RepliesOnce app.invokeHandler →
        (app.debugAssertions = true → SetsWellFounded app.authority.acl) →
        ∃ enough, ∀ fuel, enough ≤ fuel →
          ∃ call, (onMessage U T E fuel app webview request s).calls = .ok [call])) := by
  refine ⟨fun hkey fuel => ?_, fun hkey => ⟨fun fuel call hcall => ?_,
    fun fuel p c hcall hfree => ?_, fun hplugs happ hdebug => ?_⟩⟩
  · rw [onMessage_of_ne U T E hkey]
    exact ⟨rfl, rfl⟩
  · rcases onMessage_cases U T E hkey with hrej | ⟨hpermitted, -⟩
    · rw [hrej] at hcall
      exact absurd hcall not_mem_nil
    · simpa only [Permitted, resolvedAcl, pluginCommand, Option.map_eq_none_iff] using hpermitted
  · rcases onMessage_cases U T E hkey with
      hrej | ⟨-, ⟨plugin, command, hcmd, hd⟩ | ⟨-, hd⟩⟩
    · rw [hrej] at hcall
      exact absurd hcall not_mem_nil
    · rw [hd] at hcall
      obtain ⟨rfl, rfl⟩ := HandlerCall.plugin.inj (mem_handlers_extendApi hcall)
      rcases pluginCommand_eq hcmd with hbare | ⟨name, hname, rfl⟩
      · exact .inr hbare
      · rw [split_of_not_mem (hfree name hname)]
        exact .inl hname
    · rw [hd] at hcall
      simp [handOver] at hcall
  · refine eventually_atTop.mp ?_
    filter_upwards [eventually_rejection U T E hdebug webview request] with fuel hrejection
    rcases onMessage_cases U T E hkey with
      hrej | ⟨-, ⟨plugin, command, -, hd⟩ | ⟨-, hd⟩⟩
    · obtain ⟨message, hmsg⟩ := hrejection
      rw [hrej, hmsg]
      exact ⟨_, rfl⟩
    · rw [hd]
      exact foldlM_returnResult_of_length (length_replies_extendApi hplugs plugin _ s)
    · rw [hd]
      exact foldlM_returnResult_of_length (length_replies (happ _ s) _)

end Dispatch

/-! ### A sample application -/

namespace Sample

open Ipc.Sample

def texts : Texts String String where
  glob g := g
  urlPattern p := p
  url u := u.scheme

/-- A handler that handles everything and replies with nothing in particular. -/
def acknowledge : Handler String String Unit Unit Unit := fun _ s => ⟨true, [.ok ()], s⟩

/-- An app manifest whose only permission allows a command that is called `plugin:notes`. -/
def notesManifest : Manifest where
  permissions := (∅ : BTreeMap String Permission).insert "allow-notes"
    { identifier := "allow-notes", commands := { allow := ["plugin:notes"] } }

def notesAcl : Manifests := (∅ : Manifests).insert appAclKey notesManifest

theorem notesAcl_wellFounded : SetsWellFounded notesAcl := by
  intro key manifest hkey
  have hman : manifest = notesManifest := by
    rw [notesAcl, Std.ExtTreeMap.getElem?_insert] at hkey
    split_ifs at hkey with heq
    · exact (Option.some.inj hkey).symm
    · simp at hkey
  refine ⟨fun set => .intro set fun refSet hsearches => ?_⟩
  obtain ⟨permissionId, -, href⟩ := hsearches
  rw [hman] at href
  split_ifs at href
  · cases href
  · simp [notesManifest] at href

def allowNotes : Identifier := ⟨"allow-notes", none, by decide⟩

def notesCapabilities : Capabilities := (∅ : Capabilities).insert "main"
  { identifier := "main", windows := ["main"], permissions := [.permissionRef allowNotes] }

/-- An application with the plugin `notes`. -/
def app (authority : RuntimeAuthority String String scopeTypes) :
    App String String scopeTypes Unit Unit Unit where
  manager := ⟨.linux, none, ∅⟩
  invokeKey := "key"
  authority := authority
  plugins := [⟨"notes", acknowledge⟩]
  invokeHandler := acknowledge
  debugAssertions := false

/-- A request from the app's own page. -/
def request (cmd : String) : InvokeRequest Unit where
  cmd := cmd
  callback := 0
  error := 1
  url := { scheme := "tauri", host := some (.domain "localhost"), path := "" }
  body := ()
  headers := []
  invokeKey := "key"

/-- A permission set that refers to itself. -/
def circularSet : PermissionSet := ⟨"all", ["all"]⟩

def circularManifest : Manifest where
  permissionSets := (∅ : BTreeMap String PermissionSet).insert "all" circularSet

/-- A debug build of the sample, with a circular permission set in its manifest. No capability
refers to the set. -/
def circularApp : App String String scopeTypes Unit Unit Unit :=
  { app (.new ((∅ : Manifests).insert appAclKey circularManifest) ⟨∅, ∅, ∅, ∅⟩) with
    debugAssertions := true }

theorem search_circular (fuel : Nat) :
    hasPermissionsAllowingCommand circularManifest "greet" fuel circularSet = .outOfFuel := by
  induction fuel with
  | zero => rfl
  | succ fuel ih =>
    have hmem : memberAllowsCommand circularManifest "greet"
        (hasPermissionsAllowingCommand circularManifest "greet" fuel) "all" = .outOfFuel := ih
    rw [hasPermissionsAllowingCommand, circularSet, foldlM_cons, if_neg Bool.false_ne_true,
      hmem, outOfFuel_bind]

theorem rejection_circular (U : UrlCrate) (fuel : Nat) (webview : Webview) :
    rejection U texts patterns fuel circularApp webview (request "greet") = .outOfFuel := by
  have hsets : circularManifest.permissionSets.vals = [circularSet] := rfl
  have hperms : permissionsReferencingCommand fuel circularManifest "greet" = .outOfFuel := by
    simp only [permissionsReferencingCommand, hsets, foldlM_cons, search_circular,
      outOfFuel_bind]
    rfl
  -- the manifest of the app is searched, since no table has entries for the command
  change ((permissionsReferencingCommand fuel circularManifest "greet" >>= _) >>= _) = .outOfFuel
  rw [hperms, outOfFuel_bind, outOfFuel_bind]

end Sample

open Sample

/-- In a debug build of the sample, a request that no capability allows is answered once. -/
theorem sample_request_answered_once : ∃ enough, ∀ fuel, enough ≤ fuel →
    ∃ call : ResponderCall Unit, (onMessage AppManager.sampleUrlCrate Sample.texts
      Ipc.Sample.patterns fuel { Sample.app (.new Sample.notesAcl ⟨∅, ∅, ∅, ∅⟩) with
        debugAssertions := true } ⟨"main", "main"⟩ (Sample.request "greet") ()).calls =
      .ok [call] := by
  have hreplies : RepliesOnce acknowledge := fun _ _ => rfl
  have hplugs : ∀ p ∈ (app (.new notesAcl ⟨∅, ∅, ∅, ∅⟩)).plugins,
      RepliesOnce p.extendApi := by
    intro p hp
    obtain rfl := mem_singleton.mp hp
    exact hreplies
  exact ((onMessage_mediates AppManager.sampleUrlCrate texts Ipc.Sample.patterns
    { app (.new notesAcl ⟨∅, ∅, ∅, ∅⟩) with debugAssertions := true }
    ⟨"main", "main"⟩ (request "greet") ()).2 rfl).2.2 hplugs hreplies
    fun _ => notesAcl_wellFounded

/-- Two gaps. The command string `plugin:notes` is authorised, and the plugin runs the empty
command: the authorised string is not `plugin:notes|`. And in a debug build a request that is
refused gets no reply where a permission set of the searched manifest refers to itself, although
the handlers reply as they should. -/
theorem sample_bare_command_and_circular_set :
    (∃ r, Resolves Ipc.Sample.patterns Sample.notesAcl Sample.notesCapabilities .linux r ∧
      (onMessage AppManager.sampleUrlCrate Sample.texts Ipc.Sample.patterns 0
        (Sample.app (.new Sample.notesAcl r)) ⟨"main", "main"⟩ (Sample.request "plugin:notes")
        ()).handlers = [.plugin "notes" ""] ∧
      (Sample.request "plugin:notes").cmd ≠ "plugin:" ++ "notes" ++ "|" ++ "") ∧
    (∀ p ∈ Sample.circularApp.plugins, RepliesOnce p.extendApi) ∧
    RepliesOnce Sample.circularApp.invokeHandler ∧
    ∀ fuel, (onMessage AppManager.sampleUrlCrate Sample.texts Ipc.Sample.patterns fuel
      Sample.circularApp ⟨"main", "main"⟩ (Sample.request "greet") ()).calls = .outOfFuel := by
  have hreplies : RepliesOnce acknowledge := fun _ _ => rfl
  refine ⟨?_, fun p hp => ?_, hreplies, fun fuel => ?_⟩
  · have hrun : ((Resolved.resolve Ipc.Sample.patterns 1 notesAcl notesCapabilities
        .linux) >>= fun r => .ok (onMessage AppManager.sampleUrlCrate texts
          Ipc.Sample.patterns 0 (app (.new notesAcl r)) ⟨"main", "main"⟩
          (request "plugin:notes") ()).handlers) = .ok [.plugin "notes" ""] := by
      decide
    obtain ⟨r, hr, hhs⟩ := Outcome.bind_eq_ok.mp hrun
    exact ⟨r, ⟨1, hr⟩, Outcome.ok.inj hhs, by decide⟩
  · obtain rfl := mem_singleton.mp hp
    exact hreplies
  · change (rejection AppManager.sampleUrlCrate texts Ipc.Sample.patterns fuel
      circularApp ⟨"main", "main"⟩ (request "greet") >>= fun message =>
        returnResult _ _ [] (.err message)) = .outOfFuel
    rw [rejection_circular, Outcome.outOfFuel_bind]

end Webview

end Tauri
