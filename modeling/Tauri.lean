import Tauri.Acl.Autogenerate
import Tauri.Acl.Validate
import Tauri.Acl.Value
import Tauri.Bundle.Msi
import Tauri.Cli.Allowlist
import Tauri.Cli.DevServer
import Tauri.Cli.MigrateManifest
import Tauri.Event.Filters
import Tauri.Event.Lifecycle
import Tauri.Event.Once
import Tauri.Event.Pages
import Tauri.Event.Reentrancy
import Tauri.Event.Threads
import Tauri.Ipc.Advice
import Tauri.Ipc.Delivery
import Tauri.Ipc.Payload
import Tauri.Ipc.PluginScope
import Tauri.Ipc.Promises
import Tauri.Manager.Directives
import Tauri.Manager.Policy
import Tauri.Menu.Dispatch
import Tauri.Menu.Handlers
import Tauri.Menu.Stash
import Tauri.Path.Join
import Tauri.Plugin.Store
import Tauri.Protocol.ConvertFileSrc
import Tauri.Protocol.Multipart
import Tauri.Runtime.EventLoop
import Tauri.Scope.Answers
import Tauri.Scope.Containment
import Tauri.Scope.Listeners
import Tauri.State.Cells
import Tauri.Utils.AssetKey
import Tauri.Utils.Color
import Tauri.Utils.ReadLine
import Tauri.Webview.Reparent
import Tauri.Window.Labels
