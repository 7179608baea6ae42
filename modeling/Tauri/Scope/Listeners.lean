import Tauri.Rust.HashSet
import Tauri.Rust.Map
import Tauri.Rust.Mutex
import Tauri.Scope.Fs

/-!
# Listeners of the scope

`listen`, `once` and `unlisten` of `scope::fs::Scope`, and `emit`, which a call that allows or
forbids a path ends with. `emit` holds the lock on the listeners while it calls them, and the
closure that `once` builds locks it again to remove itself; so does every call of a listener that
registers or removes one, or allows or forbids a path. `serves_iff_ready` says which calls return.

Closures are values of a type `C`, whose code `body` is a `Script`: a program that makes calls to
the scope and reads and writes the rest of the world `W`. The locks on the lists of patterns are
released before any foreign code runs, and are not modelled.

Four fields of the state are there for the statements and are read by no code: the listeners that
are `registered`, each with a number of its own; the counters of these numbers and of the events;
and the log of calls.
-/

namespace Tauri.Fs

open Rust List Act

abbrev ScopeEventId := UInt32

/-- `fs::Event`. -/
inductive Event where
  | pathAllowed (path : Path)
  | pathForbidden (path : Path)
  deriving DecidableEq

/-- The event that a call ends with. -/
def Call.event : Call → Event
  | .allowDirectory path _ | .allowFile path => .pathAllowed path
  | .forbidDirectory path _ | .forbidFile path => .pathForbidden path

/-- `EventListener`: a closure passed to `listen`, or the one that `once` builds around the cell
that holds its handler. The cell is addressed by the number of the listener. -/
inductive EventListener (C : Type) where
  | listen (number : Nat) (f : C)
  | once (number : Nat) (id : ScopeEventId)
  deriving DecidableEq

def EventListener.number {C : Type} : EventListener C → Nat
  | listen number _ | once number _ => number

/-- A call of a method. -/
inductive Request (C : Type) where
  | listen (f : C)
  | once (f : C)
  | unlisten (id : ScopeEventId)
  | change (call : Call)

/-- What a method returns. -/
inductive Reply where
  | id (id : ScopeEventId)
  | done
  | result (ok : Bool)

/-- The code of a listener. -/
inductive Script (G : Glob) (C W : Type) where
  | done
  | panic
  | update (f : Scope G → W → W) (k : W → Script G C W)
  | call (request : Request C) (k : Reply → Script G C W)

/-- A call of a listener: by which event, of which listener, with what. -/
structure Called where
  emission : Nat
  number : Nat
  event : Event
  deriving DecidableEq

/-- `Scope` with its listeners, the cells of `once`, and the rest of the world. -/
structure Listening (G : Glob) (C W : Type) where
  scope : Scope G
  eventListeners : BTreeMap ScopeEventId (EventListener C)
  nextEventId : ScopeEventId
  cells : Nat → Option C
  world : W
  registered : List (ScopeEventId × EventListener C)
  registrations : Nat
  emissions : Nat
  log : List Called

section Methods

variable {G : Glob} {C W : Type}

namespace Listening

/-- A scope without listeners. -/
def new (scope : Scope G) (world : W) : Listening G C W :=
  ⟨scope, ∅, 0, fun _ => none, world, [], 0, 0, []⟩

def insert (s : Listening G C W) (id : ScopeEventId) (listener : EventListener C) :
    Listening G C W :=
  { s with
    eventListeners := s.eventListeners.insert id listener
    registered := s.registered ++ [(id, listener)] }

def remove (s : Listening G C W) (id : ScopeEventId) : Listening G C W :=
  { s with
    eventListeners := s.eventListeners.erase id
    registered := s.registered.filter fun r => r.1 ≠ id }

end Listening

/-- `next_event_id`. -/
def nextEventId : Act (Listening G C W) ScopeEventId :=
  .modifyGet fun s => (s.nextEventId, { s with nextEventId := s.nextEventId + 1 })

/-- `listen_with_id`. -/
def listenWithId (id : ScopeEventId) (listener : EventListener C) : Act (Listening G C W) Unit :=
  .withLock (.modify fun s => s.insert id listener)

/-- The number of a new listener. -/
def newNumber : Act (Listening G C W) Nat :=
  .modifyGet fun s => (s.registrations, { s with registrations := s.registrations + 1 })

/-- `Cell::new(Some(f))`. -/
def newCell (f : C) : Act (Listening G C W) Nat := do
  let number ← newNumber
  .modify fun s => { s with cells := Function.update s.cells number (some f) }
  return number

/-- `Cell::take`. -/
def takeCell (number : Nat) : Act (Listening G C W) (Option C) :=
  .modifyGet fun s => (s.cells number, { s with cells := Function.update s.cells number none })

/-- `listen`. -/
def listen (f : C) : Act (Listening G C W) ScopeEventId := do
  let id ← nextEventId
  let number ← newNumber
  listenWithId id (.listen number f)
  return id

/-- `once`. -/
def once (f : C) : Act (Listening G C W) ScopeEventId := do
  let number ← newCell f
  let id ← nextEventId
  listenWithId id (.once number id)
  return id

/-- `unlisten`. -/
def unlisten (id : ScopeEventId) : Act (Listening G C W) Unit :=
  .withLock (.modify fun s => s.remove id)

variable (fs : FileSystem) (cwd : Location) (o : HashOrder (EventListener C))
  (body : C → Event → Script G C W)

/-- `emit`, given what it is to call a listener. -/
def emit (invoke : EventListener C → Event → Act (Listening G C W) Unit) (event : Event) :
    Act (Listening G C W) Unit :=
  .withLock do
    let (emission, handlers) ← .modifyGet fun s =>
      ((s.emissions, s.eventListeners.vals), { s with emissions := s.emissions + 1 })
    (o.order handlers).forM fun listener => do
      .modify fun s => { s with log := s.log ++ [⟨emission, listener.number, event⟩] }
      invoke listener event

/-- `allow_directory`, `allow_file`, `forbid_directory` and `forbid_file`; whether the answer is
`Ok`. -/
def change (invoke : EventListener C → Event → Act (Listening G C W) Unit) (call : Call) :
    Act (Listening G C W) Bool := do
  let ok ← .modifyGet fun s =>
    let (scope, ok) := s.scope.perform fs cwd call
    (ok, { s with scope })
  match ok with
  | false => return false
  | true =>
    emit o invoke call.event
    return true

def Request.perform (invoke : EventListener C → Event → Act (Listening G C W) Unit) :
    Request C → Act (Listening G C W) Reply
  | .listen f => do
    let id ← Fs.listen f
    return .id id
  | .once f => do
    let id ← Fs.once f
    return .id id
  | .unlisten id => do
    Fs.unlisten id
    return .done
  | .change call => do
    let ok ← Fs.change fs cwd o invoke call
    return .result ok

/-- The code of a listener runs. -/
def Script.run (invoke : EventListener C → Event → Act (Listening G C W) Unit) :
    Script G C W → Act (Listening G C W) Unit
  | .done => pure ()
  | .panic => .panic
  | .update f k => do
    let world ← .modifyGet fun s => (f s.scope s.world, { s with world := f s.scope s.world })
    (k world).run invoke
  | .call request k => do
    let reply ← request.perform fs cwd o invoke
    (k reply).run invoke

/-- A listener is called. Calls that it makes are followed as deep as `depth`. -/
def invoke : Nat → EventListener C → Event → Act (Listening G C W) Unit
  | 0, _, _ => .outOfFuel
  | depth + 1, .listen _ f, event => (body f event).run fs cwd o (invoke depth)
  | depth + 1, .once number id, event => do
    .withLock (.modify fun s => s.remove id)
    match ← takeCell number with
    | none => .panic
    | some f => (body f event).run fs cwd o (invoke depth)

/-- A sequence of calls. -/
def run (depth : Nat) (requests : List (Request C)) : Act (Listening G C W) Unit :=
  requests.forM fun request => do
    let _ ← request.perform fs cwd o (invoke fs cwd o body depth)
    return ()

end Methods

/-! ### Calls that return -/

section Quiet

variable {G : Glob} {C W : Type} (fs : FileSystem) (cwd : Location)
  (o : HashOrder (EventListener C)) (body : C → Event → Script G C W)

/-- A request that a listener can make while it is called: only one that fails before it emits. -/
def Request.quiet : Request C → StateT (Listening G C W) Option Reply
  | .change call => fun s =>
    let (scope, ok) := s.scope.perform fs cwd call
    if ok then none else some (.result false, { s with scope })
  | .listen _ | .once _ | .unlisten _ => fun _ => none

/-- The code of a listener, as long as it does not panic and makes only quiet requests. -/
def Script.quiet : Script G C W → StateT (Listening G C W) Option Unit
  | .done => pure ()
  | .panic => fun _ => none
  | .update f k => do
    let world ← fun s => some (f s.scope s.world, { s with world := f s.scope s.world })
    (k world).quiet
  | .call request k => do
    let reply ← request.quiet fs cwd
    (k reply).quiet

/-- A listener that is called, if it is none of `once` and its code is quiet. -/
def EventListener.quiet (event : Event) : EventListener C → StateT (Listening G C W) Option Unit
  | .listen _ f => (body f event).quiet fs cwd
  | .once _ _ => fun _ => none

/-- The loop of `emit`, as long as the listeners are quiet. -/
def serveAll (emission : Nat) (event : Event) (listeners : List (EventListener C)) :
    StateT (Listening G C W) Option Unit :=
  listeners.forM fun listener => do
    fun s => some ((), { s with log := s.log ++ [⟨emission, listener.number, event⟩] })
    listener.quiet fs cwd body event

/-- `emit`, if the listeners are quiet. -/
def serve (event : Event) : StateT (Listening G C W) Option Unit := fun s =>
  serveAll fs cwd body s.emissions event (o.order s.eventListeners.vals)
    { s with emissions := s.emissions + 1 }

/-- What a request does with the lock free, if it returns. -/
def Request.act : Request C → StateT (Listening G C W) Option Reply
  | .listen f => fun s =>
    some (.id s.nextEventId, { s with
      nextEventId := s.nextEventId + 1
      registrations := s.registrations + 1 }.insert s.nextEventId (.listen s.registrations f))
  | .once f => fun s =>
    some (.id s.nextEventId, { s with
      nextEventId := s.nextEventId + 1
      registrations := s.registrations + 1
      cells := Function.update s.cells s.registrations (some f) }.insert s.nextEventId
        (.once s.registrations s.nextEventId))
  | .unlisten id => fun s => some (.done, s.remove id)
  | .change call => fun s =>
    let (scope, ok) := s.scope.perform fs cwd call
    if ok then (serve fs cwd o body call.event { s with scope }).map fun r => (.result true, r.2)
    else some (.result false, { s with scope })

variable {fs cwd o body}

theorem change_computes {lock : Lock} {call : Call}
    {f : EventListener C → Event → Act (Listening G C W) Unit}
    {g : StateT (Listening G C W) Option Unit}
    (hemit : Computes lock (emit o f call.event) g) :
    Computes lock (change fs cwd o f call) fun s =>
      let (scope, ok) := s.scope.perform fs cwd call
      if ok then (g { s with scope }).map fun r => (true, r.2)
      else some (false, { s with scope }) := by
  intro s s' ok
  have hchange : change fs cwd o f call ⟨lock, s⟩ =
      (match (s.scope.perform fs cwd call).2 with
        | false => pure false
        | true => emit o f call.event >>= fun _ => pure true : Act (Listening G C W) Bool)
        ⟨lock, { s with scope := (s.scope.perform fs cwd call).1 }⟩ := rfl
  rw [hchange]
  beta_reduce
  generalize s.scope.perform fs cwd call = p
  obtain ⟨scope, ok'⟩ := p
  cases ok' with
  | false => exact Computes.pure false { s with scope } s' ok
  | true =>
    have hret := (hemit.bind fun _ => .pure true) { s with scope } s' ok
    refine hret.trans (exists_congr fun v' => and_congr_left fun _ => ?_)
    have hbind : (g >>= fun _ => pure true : StateT (Listening G C W) Option Bool)
        { s with scope } = (g { s with scope }).map fun r => (true, r.2) := by
      cases hg : g { s with scope } <;> simp [bind, StateT.bind, hg, pure, StateT.pure]
    rw [hbind]
    rfl

variable (f : EventListener C → Event → Act (Listening G C W) Unit)

theorem Request.computes_held (request : Request C) :
    Computes .held (request.perform fs cwd o f) (request.quiet fs cwd) := by
  cases request with
  | listen g =>
    have hlis : Computes .held (Fs.listen g) fun _ : Listening G C W => none :=
      (Computes.modifyGet _).bind fun _ => (Computes.modifyGet _).bind fun _ =>
        (Computes.withLock_held _).bind_of_none _
    exact hlis.bind_of_none _
  | once g =>
    have honce : Computes .held (Fs.once g) fun _ : Listening G C W => none :=
      ((Computes.modifyGet _).bind fun _ => (Computes.modify _).bind fun _ =>
        .pure _).bind fun _ => (Computes.modifyGet _).bind fun _ =>
          (Computes.withLock_held _).bind_of_none _
    exact honce.bind_of_none _
  | unlisten id => exact (Computes.withLock_held _).bind_of_none _
  | change call =>
    refine Computes.congr ((change_computes (Computes.withLock_held _)).bind fun _ =>
      .pure _) ?_
    funext s
    simp only [bind, StateT.bind, Request.quiet]
    generalize s.scope.perform fs cwd call = p
    obtain ⟨scope, ok⟩ := p
    cases ok <;> rfl

theorem Script.computes_held (script : Script G C W) :
    Computes .held (script.run fs cwd o f) (script.quiet fs cwd) := by
  induction script with
  | done => exact .pure ()
  | panic => exact .panic
  | update g k ih => exact (Computes.modifyGet _).bind ih
  | call request k ih => exact (request.computes_held f).bind ih

/-- A listener that is called with the lock held. Its code is not followed any deeper: a call that
would call further listeners finds the lock taken. -/
theorem invoke_computes_held (depth : Nat) (listener : EventListener C) (event : Event) :
    Computes .held (invoke fs cwd o body (depth + 1) listener event)
      (listener.quiet fs cwd body event) := by
  cases listener with
  | listen _ g => exact (body g event).computes_held _
  | once =>
    -- The closure removes itself first.
    exact (Computes.withLock_held _).bind_of_none _

theorem emit_computes_free (depth : Nat) (event : Event) :
    Computes .free (emit o (invoke fs cwd o body (depth + 1)) event)
      (serve fs cwd o body event) := by
  have hlisteners : ∀ emission handlers, Computes .held
      ((o.order handlers).forM fun listener => do
        .modify fun s => { s with log := s.log ++ [⟨emission, listener.number, event⟩] }
        invoke fs cwd o body (depth + 1) listener event)
      (serveAll fs cwd body emission event (o.order handlers)) := fun emission handlers =>
    .forM (fun listener => (Computes.modify _).bind fun _ =>
      invoke_computes_held depth listener event) _
  exact .withLock_free ((Computes.modifyGet _).bind 
    fun p : Nat × List (EventListener C) => hlisteners p.1 p.2)

theorem Request.computes_free (depth : Nat) (request : Request C) :
    Computes .free (request.perform fs cwd o (invoke fs cwd o body (depth + 1)))
      (request.act fs cwd o body) := by
  cases request with
  | listen f =>
    exact ((Computes.modifyGet _).bind fun _ => (Computes.modifyGet _).bind fun _ =>
      (Computes.withLock_free (.modify _)).bind fun _ => .pure _).bind fun _ => .pure _
  | once f =>
    exact (((Computes.modifyGet _).bind fun _ => (Computes.modify _).bind fun _ =>
      .pure _).bind fun _ => (Computes.modifyGet _).bind fun _ =>
        (Computes.withLock_free (.modify _)).bind fun _ => .pure _).bind fun _ => .pure _
  | unlisten id => exact (Computes.withLock_free (.modify _)).bind fun _ => .pure _
  | change call =>
    refine Computes.congr ((change_computes (emit_computes_free depth _)).bind fun _ =>
      .pure _) ?_
    funext s
    simp only [bind, StateT.bind, Request.act]
    generalize s.scope.perform fs cwd call = p
    obtain ⟨scope, ok⟩ := p
    cases ok with
    | false => rfl
    | true =>
      dsimp only
      cases serve fs cwd o body call.event { s with scope } <;> rfl

variable {s s' : Listening G C W}

theorem Script.quiet_frame {script : Script G C W} (h : script.quiet fs cwd s = some ((), s')) :
    s' = { s with scope := s'.scope, world := s'.world } := by
  induction script generalizing s with
  | done =>
    cases h
    rfl
  | panic => cases h
  | update f k ih =>
    obtain ⟨world, s₁, hworld, hrest⟩ := stateT_bind_eq_some.mp h
    cases hworld
    have hs' := ih _ hrest
    exact hs'
  | call request k ih =>
    obtain ⟨reply, s₁, hreq, hrest⟩ := stateT_bind_eq_some.mp h
    have hs' := ih _ hrest
    have hs₁ : s₁ = { s with scope := s₁.scope } := by
      cases request with
      | listen | once | unlisten => cases hreq
      | change call =>
        simp only [Request.quiet] at hreq
        generalize s.scope.perform fs cwd call = p at hreq
        obtain ⟨scope, ok⟩ := p
        cases ok with
        | true => cases hreq
        | false =>
          cases hreq
          rfl
    rw [hs₁] at hs'
    exact hs'

theorem serveAll_frame {emission : Nat} {event : Event} {listeners : List (EventListener C)}
    (h : serveAll fs cwd body emission event listeners s = some ((), s')) :
    s' = { s with
      scope := s'.scope
      world := s'.world
      log := s.log ++ listeners.map fun listener => ⟨emission, listener.number, event⟩ } := by
  induction listeners generalizing s with
  | nil =>
    cases h
    simp
  | cons listener _ ih =>
    obtain ⟨_, s₁, hlis, hrest⟩ := stateT_bind_eq_some.mp h
    have hs' := ih hrest
    cases listener with
    | once => cases hlis
    | listen =>
      have hs₁ := Script.quiet_frame hlis
      rw [hs₁] at hs'
      simpa using hs'

theorem serveAll_listens {emission : Nat} {event : Event} {listeners : List (EventListener C)}
    (h : serveAll fs cwd body emission event listeners s = some ((), s')) :
    ∀ listener ∈ listeners, ∃ number f, listener = .listen number f := by
  induction listeners generalizing s with
  | nil => simp
  | cons listener _ ih =>
    obtain ⟨_, s₁, hlis, hrest⟩ := stateT_bind_eq_some.mp h
    refine forall_mem_cons.mpr ⟨?_, ih hrest⟩
    cases listener with
    | once => cases hlis
    | listen number f => exact ⟨number, f, rfl⟩

end Quiet

/-! ### Listeners that are called -/

section Served

variable {G : Glob} {C W : Type} {fs : FileSystem} {cwd : Location}
  {o : HashOrder (EventListener C)} {body : C → Event → Script G C W} {s s' : Listening G C W}

/-- Between calls: a registered listener has its own number, the map has registered listeners, and
the log has the calls of earlier events. -/
structure Listening.Inv (s : Listening G C W) : Prop where
  nodup : (s.registered.map fun r => r.2.number).Nodup
  lt : ∀ r ∈ s.registered, r.2.number < s.registrations
  mem : ∀ id listener, s.eventListeners[id]? = some listener → (id, listener) ∈ s.registered
  log_lt : ∀ called ∈ s.log, called.emission < s.emissions

theorem Listening.Inv.new (scope : Scope G) (world : W) :
    (Listening.new scope world : Listening G C W).Inv :=
  ⟨.nil, by simp [Listening.new], by simp [Listening.new], by simp [Listening.new]⟩

theorem Listening.Inv.insert (h : s.Inv) (id : ScopeEventId) {listener : EventListener C}
    (hnum : listener.number = s.registrations) (next : ScopeEventId) (cells : Nat → Option C) :
    ({ s with
      nextEventId := next
      registrations := s.registrations + 1
      cells := cells }.insert id listener).Inv where
  nodup := by
    simp only [Listening.insert, map_append, map_cons, map_nil]
    refine nodup_append.mpr ⟨h.nodup, nodup_singleton _, ?_⟩
    intro n hn m hm
    obtain ⟨r, hr, rfl⟩ := mem_map.mp hn
    have hlt := h.lt r hr
    rw [mem_singleton] at hm
    omega
  lt := by
    intro r hr
    simp only [Listening.insert, mem_append, mem_singleton] at hr ⊢
    rcases hr with hr | rfl
    · have hlt := h.lt r hr
      omega
    · simp [hnum]
  mem := by
    intro id' listener' hget
    simp only [Listening.insert, mem_append, mem_singleton]
    rcases BTreeMap.getElem?_insert_eq_some.mp hget with ⟨rfl, rfl⟩ | ⟨-, hget⟩
    · exact .inr rfl
    · exact .inl (h.mem id' listener' hget)
  log_lt := h.log_lt

theorem Listening.Inv.remove (h : s.Inv) (id : ScopeEventId) : (s.remove id).Inv where
  nodup := h.nodup.sublist (filter_sublist.map _)
  lt r hr := h.lt r (mem_of_mem_filter hr)
  mem := by
    intro id' listener hget
    obtain ⟨hid, hget⟩ := BTreeMap.getElem?_erase_eq_some.mp hget
    simp only [Listening.remove, mem_filter, decide_eq_true_eq]
    exact ⟨h.mem id' listener hget, hid⟩
  log_lt := h.log_lt

theorem serve_frame {event : Event} (h : serve fs cwd o body event s = some ((), s')) :
    s' = { s with
      scope := s'.scope
      world := s'.world
      emissions := s.emissions + 1
      log := s.log ++ (o.order s.eventListeners.vals).map fun listener =>
        ⟨s.emissions, listener.number, event⟩ } :=
  serveAll_frame h

theorem Request.act_inv {request : Request C} {reply : Reply} (h : s.Inv)
    (hact : request.act fs cwd o body s = some (reply, s')) : s'.Inv := by
  cases request with
  | listen f | once f =>
    cases hact
    exact h.insert _ rfl _ _
  | unlisten id =>
    cases hact
    exact h.remove id
  | change call =>
    simp only [Request.act] at hact
    generalize s.scope.perform fs cwd call = p at hact
    obtain ⟨scope, ok⟩ := p
    cases ok with
    | false =>
      cases hact
      exact ⟨h.nodup, h.lt, h.mem, h.log_lt⟩
    | true =>
      obtain ⟨⟨_, s₁⟩, hserve, heq⟩ := Option.map_eq_some_iff.mp hact
      cases heq
      rw [serve_frame hserve]
      refine ⟨h.nodup, h.lt, h.mem, ?_⟩
      intro called hcalled
      rcases mem_append.mp hcalled with hcalled | hcalled
      · have hlt := h.log_lt called hcalled
        exact Nat.lt_succ_of_lt hlt
      · obtain ⟨listener, -, rfl⟩ := mem_map.mp hcalled
        exact Nat.lt_succ_self _

/-- An event is served: the listeners that are registered are called with it, each once, and those
of `once` are removed. -/
structure Served (s s' : Listening G C W) (event : Event) : Prop where
  called : (s'.log.filter fun called => called.emission = s.emissions).Perm
    (s.registered.map fun r => ⟨s.emissions, r.2.number, event⟩)
  removed : ∀ r ∈ s.registered, ∀ number id, r.2 = .once number id →
    ∀ id' : ScopeEventId, s'.eventListeners[id']? ≠ some r.2

variable (fs cwd o body) in
/-- The scope is ready for a call: no listener was replaced by one that got its id, and the
listeners are quiet, so none is of `once`. -/
structure Ready (s : Listening G C W) (call : Call) : Prop where
  kept : ∀ r ∈ s.registered, s.eventListeners[r.1]? = some r.2
  quiet : (serve fs cwd o body call.event
    { s with scope := (s.scope.perform fs cwd call).1 }).isSome = true

variable {call : Call}

theorem Ready.exists_serve (h : Ready fs cwd o body s call) :
    ∃ s', serve fs cwd o body call.event
      { s with scope := (s.scope.perform fs cwd call).1 } = some ((), s') := by
  obtain ⟨⟨_, s'⟩, hserve⟩ := Option.isSome_iff_exists.mp h.quiet
  exact ⟨s', hserve⟩

theorem Ready.listens (h : Ready fs cwd o body s call) :
    ∀ r ∈ s.registered, ∃ number f, r.2 = .listen number f := by
  intro r hr
  obtain ⟨s', hserve⟩ := h.exists_serve
  refine serveAll_listens hserve r.2 ?_
  rw [(o.perm _).mem_iff]
  exact BTreeMap.mem_vals.mpr ⟨r.1, h.kept r hr⟩

theorem Listening.Inv.vals_perm (h : s.Inv)
    (hkept : ∀ r ∈ s.registered, s.eventListeners[r.1]? = some r.2) :
    s.eventListeners.vals.Perm (s.registered.map Prod.snd) := by
  refine Perm.map _ ((perm_ext_iff_of_nodup ?_ ?_).mpr fun r => ?_)
  · exact (BTreeMap.nodup_map_fst_toList _).of_map _
  · exact h.nodup.of_map _
  · rw [Std.ExtTreeMap.mem_toList_iff_getElem?_eq_some]
    exact ⟨h.mem r.1 r.2, hkept r⟩

theorem Listening.Inv.called_serve (h : s.Inv) {event : Event}
    (hserve : serve fs cwd o body event s = some ((), s')) :
    (s'.log.filter fun called => called.emission = s.emissions).Perm
      (s.eventListeners.vals.map fun listener => ⟨s.emissions, listener.number, event⟩) := by
  have hold : s.log.filter (fun called => called.emission = s.emissions) = [] := by
    rw [filter_eq_nil_iff]
    intro called hcalled
    have hlt := h.log_lt called hcalled
    simp only [decide_eq_true_eq]
    omega
  have hnew : ∀ listeners : List (EventListener C),
      (listeners.map fun listener => (⟨s.emissions, listener.number, event⟩ : Called)).filter
        (fun called => called.emission = s.emissions) =
      listeners.map fun listener => ⟨s.emissions, listener.number, event⟩ := by
    intro listeners
    rw [filter_eq_self]
    simp
  rw [serve_frame hserve, filter_append, hold, hnew, nil_append]
  exact (o.perm _).map _

/-- **One call.** A call that emits returns and serves its event exactly if the scope is ready. -/
theorem served_iff_ready (h : s.Inv) :
    (∃ s', serve fs cwd o body call.event { s with scope := (s.scope.perform fs cwd call).1 } =
      some ((), s') ∧ Served s s' call.event) ↔ Ready fs cwd o body s call := by
  have hinv : ({ s with scope := (s.scope.perform fs cwd call).1 } : Listening G C W).Inv :=
    ⟨h.nodup, h.lt, h.mem, h.log_lt⟩
  constructor
  · rintro ⟨s', hserve, hserved⟩
    refine ⟨fun r hr => ?_, by rw [hserve]; rfl⟩
    -- The call of `r` is that of a listener in the map, which can only be `r`.
    have hcalled : (⟨s.emissions, r.2.number, call.event⟩ : Called) ∈
        s.eventListeners.vals.map fun listener =>
          ⟨s.emissions, listener.number, call.event⟩ := by
      rw [← (hinv.called_serve hserve).mem_iff, hserved.called.mem_iff]
      exact mem_map_of_mem hr
    obtain ⟨listener, hlis, heq⟩ := mem_map.mp hcalled
    obtain ⟨id, hget⟩ := BTreeMap.mem_vals.mp hlis
    have hnum : listener.number = r.2.number := congrArg Called.number heq
    have hr' : (id, listener) = r := inj_on_of_nodup_map h.nodup (h.mem id listener hget) hr hnum
    rw [← hr']
    exact hget
  · intro hready
    obtain ⟨s', hserve⟩ := hready.exists_serve
    refine ⟨s', hserve, ?_, ?_⟩
    · have hperm := (hinv.called_serve hserve).trans ((h.vals_perm hready.kept).map _)
      rw [map_map] at hperm
      exact hperm
    · intro r hr number id honce
      obtain ⟨number', f, hlisten⟩ := hready.listens r hr
      rw [hlisten] at honce
      cases honce

end Served

/-! ### Sequences of calls -/

section Run

variable {G : Glob} {C W : Type} (fs : FileSystem) (cwd : Location)
  (o : HashOrder (EventListener C)) (body : C → Event → Script G C W)

/-- In a sequence of requests every call that allows or forbids returns, and serves its event if it
succeeds. -/
def Serves (depth : Nat) (s₀ : Listening G C W) (requests : List (Request C)) : Prop :=
  ∀ before call after, requests = before ++ .change call :: after →
    ∃ s s' ok, run fs cwd o body depth before ⟨.free, s₀⟩ = .returned s () ∧
      change fs cwd o (invoke fs cwd o body depth) call s = .returned s' ok ∧
      (ok = true → Served s.value s'.value call.event)

/-- In a sequence of requests the scope is ready at every call that allows or forbids and
succeeds. -/
def AlwaysReady (depth : Nat) (s₀ : Listening G C W) (requests : List (Request C)) : Prop :=
  ∀ before call after, requests = before ++ .change call :: after →
    ∀ s, run fs cwd o body depth before ⟨.free, s₀⟩ = .returned s () →
      (s.value.scope.perform fs cwd call).2 = true → Ready fs cwd o body s.value call

variable {fs cwd o body} {s₀ : Listening G C W}

theorem run_computes (depth : Nat) (requests : List (Request C)) :
    Computes .free (run fs cwd o body (depth + 1) requests)
      (requests.forM fun request => request.act fs cwd o body >>= fun _ => pure ()) :=
  .forM (fun request => (request.computes_free depth).bind fun _ => .pure ()) requests

variable {depth : Nat}

theorem run_inv {requests : List (Request C)} {s : Locked (Listening G C W)} (h₀ : s₀.Inv)
    (h : run fs cwd o body (depth + 1) requests ⟨.free, s₀⟩ = .returned s ()) :
    s.lock = .free ∧ s.value.Inv := by
  obtain ⟨v, hv, rfl⟩ := (run_computes depth requests s₀ s ()).mp h
  refine ⟨rfl, ?_⟩
  clear h
  induction requests generalizing s₀ with
  | nil =>
    cases hv
    exact h₀
  | cons request _ ih =>
    obtain ⟨_, s₁, hreq, hrest⟩ := stateT_bind_eq_some.mp hv
    obtain ⟨reply, s₂, hact, heq⟩ := stateT_bind_eq_some.mp hreq
    cases heq
    exact ih (request.act_inv h₀ hact) hrest

theorem change_eq_returned {call : Call} {v : Listening G C W} {s' : Locked (Listening G C W)}
    {ok : Bool} :
    change fs cwd o (invoke fs cwd o body (depth + 1)) call ⟨.free, v⟩ = .returned s' ok ↔
      ok = (v.scope.perform fs cwd call).2 ∧
      if ok then ∃ v', s' = ⟨.free, v'⟩ ∧
        serve fs cwd o body call.event { v with scope := (v.scope.perform fs cwd call).1 } =
          some ((), v')
      else s' = ⟨.free, { v with scope := (v.scope.perform fs cwd call).1 }⟩ := by
  rw [change_computes (emit_computes_free depth call.event) v s' ok]
  beta_reduce
  generalize v.scope.perform fs cwd call = p
  obtain ⟨scope, ok'⟩ := p
  cases ok' with
  | false => simp_all
  | true =>
    constructor
    · simp_all
    · rintro ⟨rfl, v', rfl, hserve⟩
      exact ⟨v', Option.map_eq_some_iff.mpr ⟨_, hserve, rfl⟩, rfl⟩

theorem exists_change {call : Call} {v : Listening G C W} (hinv : v.Inv)
    (hready : (v.scope.perform fs cwd call).2 = true → Ready fs cwd o body v call) :
    ∃ s' ok, change fs cwd o (invoke fs cwd o body (depth + 1)) call ⟨.free, v⟩ =
      .returned s' ok ∧ (ok = true → Served v s'.value call.event) := by
  by_cases hok : (v.scope.perform fs cwd call).2 = true
  · obtain ⟨v', hserve, hserved⟩ := (served_iff_ready hinv).mpr (hready hok)
    refine ⟨⟨.free, v'⟩, true, change_eq_returned.mpr ⟨hok.symm, ?_⟩, fun _ => hserved⟩
    rw [if_pos rfl]
    exact ⟨v', rfl, hserve⟩
  · rw [Bool.not_eq_true] at hok
    refine ⟨⟨.free, { v with scope := (v.scope.perform fs cwd call).1 }⟩, false,
      change_eq_returned.mpr ⟨hok.symm, ?_⟩, by simp⟩
    rw [if_neg Bool.false_ne_true]

theorem AlwaysReady.exists_run {requests : List (Request C)} (h₀ : s₀.Inv)
    (h : AlwaysReady fs cwd o body (depth + 1) s₀ requests) :
    ∃ v, run fs cwd o body (depth + 1) requests ⟨.free, s₀⟩ = .returned ⟨.free, v⟩ () := by
  induction requests using reverseRecOn with
  | nil => exact ⟨s₀, rfl⟩
  | append_singleton requests request ih =>
    obtain ⟨v, hrun⟩ := ih fun before call after heq s =>
      h before call (after ++ [request]) (by rw [heq]; simp) s
    have hinv : v.Inv := (run_inv h₀ hrun).2
    obtain ⟨s', reply, hperform⟩ : ∃ s' reply,
        request.perform fs cwd o (invoke fs cwd o body (depth + 1)) ⟨.free, v⟩ =
          .returned s' reply := by
      cases request with
      | listen f => exact ⟨_, _, (Request.computes_free depth (.listen f) v _ _).mpr ⟨_, rfl, rfl⟩⟩
      | once f => exact ⟨_, _, (Request.computes_free depth (.once f) v _ _).mpr ⟨_, rfl, rfl⟩⟩
      | unlisten id =>
        exact ⟨_, _, (Request.computes_free depth (.unlisten id) v _ _).mpr ⟨_, rfl, rfl⟩⟩
      | change call =>
        obtain ⟨s', ok, hchange, -⟩ := exists_change hinv (h requests call [] rfl _ hrun)
        exact ⟨s', .result ok, bind_eq_returned.mpr ⟨s', ok, hchange, rfl⟩⟩
    obtain ⟨v', -, rfl⟩ := (request.computes_free depth v s' reply).mp hperform
    refine ⟨v', forM_append_eq_returned.mpr ⟨_, hrun, ?_⟩⟩
    exact bind_eq_returned.mpr ⟨_, (), bind_eq_returned.mpr ⟨_, reply, hperform, rfl⟩, rfl⟩

/-- **Listeners.** In a sequence of requests to a new scope, every call that allows or forbids
returns, and serves its event if it succeeds, exactly if the scope is ready at every one that
succeeds. -/
theorem serves_iff_ready (depth : Nat) (scope : Scope G) (world : W)
    (requests : List (Request C)) :
    Serves fs cwd o body (depth + 1) (.new scope world) requests ↔
      AlwaysReady fs cwd o body (depth + 1) (.new scope world) requests := by
  have h₀ : (Listening.new scope world : Listening G C W).Inv := .new scope world
  constructor
  · intro hserves before call after hreqs s hrun hok
    obtain ⟨_, s', ok, hrun', hchange, hserved⟩ := hserves before call after hreqs
    cases hrun.symm.trans hrun'
    obtain ⟨lock, v⟩ := s
    obtain ⟨rfl, hinv⟩ := run_inv h₀ hrun
    obtain ⟨rfl, hserve⟩ := change_eq_returned.mp hchange
    rw [if_pos hok] at hserve
    obtain ⟨v', rfl, hserve⟩ := hserve
    exact (served_iff_ready hinv).mp ⟨v', hserve, hserved hok⟩
  · intro hready before call after hreqs
    have hbef : AlwaysReady fs cwd o body (depth + 1) (.new scope world) before :=
      fun before' call' after' heq s =>
        hready before' call' (after' ++ .change call :: after) (by rw [hreqs, heq]; simp) s
    obtain ⟨v, hrun⟩ := hbef.exists_run h₀
    have hinv : v.Inv := (run_inv h₀ hrun).2
    obtain ⟨s', ok, hchange, hserved⟩ := exists_change hinv (hready before call after hreqs _ hrun)
    exact ⟨_, s', ok, hrun, hchange, hserved⟩

end Run

namespace Sample

/-- A file system that is empty. -/
def emptyTree : FileSystem where
  node loc := if loc = [] then some .dir else none
  root := by simp
  maxLinks := 40

def insertionOrder : HashOrder (EventListener Unit) := ⟨id, fun _ => .refl _⟩

/-- Listeners that do nothing. -/
def idle : Unit → Event → Script glob Unit Unit := fun _ _ => .done

def allow : Call := .allowFile (.ofLocation [file])

end Sample

/-- A listener that does nothing is called when a path is allowed. -/
theorem sample_listener_served :
    Serves Sample.emptyTree [] Sample.insertionOrder Sample.idle 1 (.new Sample.scope ())
      [.listen (), .change Sample.allow] := by
  refine (serves_iff_ready 0 Sample.scope () _).mpr ?_
  intro before call after hreqs s hrun _
  obtain ⟨rfl, rfl⟩ : before = [.listen ()] ∧ call = Sample.allow := by
    rcases before with _ | ⟨request, _ | ⟨request', before⟩⟩
    · cases hreqs
    · cases hreqs
      exact ⟨rfl, rfl⟩
    · simp at hreqs
  cases hrun
  refine ⟨fun r hr => ?_, rfl⟩
  rw [mem_singleton.mp hr]
  rfl

/-- A path is allowed while a listener of `once` is registered: the call does not return. -/
theorem sample_once_blocks :
    (∃ s, run Sample.emptyTree [] Sample.insertionOrder Sample.idle 1 [.once ()]
        ⟨.free, .new Sample.scope ()⟩ = .returned s () ∧
      change Sample.emptyTree [] Sample.insertionOrder
        (invoke Sample.emptyTree [] Sample.insertionOrder Sample.idle 1) Sample.allow s =
          .blocked) ∧
    ¬ Serves Sample.emptyTree [] Sample.insertionOrder Sample.idle 1 (.new Sample.scope ())
      [.once (), .change Sample.allow] := by
  refine ⟨⟨_, rfl, rfl⟩, fun hserves => ?_⟩
  obtain ⟨s, s', ok, hrun, hchange, -⟩ := hserves [.once ()] Sample.allow [] rfl
  cases hrun
  cases hchange

end Tauri.Fs
