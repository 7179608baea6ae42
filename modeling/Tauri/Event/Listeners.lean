import Tauri.Rust.Execution
import Tauri.Rust.Map

/-!
# Event listeners

The registry behind `listen`, `once`, `unlisten` and `emit`. Handlers are called with the lock on
the handler map held, and a handler may call the registry again; every operation therefore only
**tries** the lock, and where it is taken it leaves an action in the queue `pending`. An emit that
has called a handler flushes the queue when it has released the lock.

The model is a machine of atomic steps, one `Frame` per point at which another thread can
interfere: trying the lock, pushing to the queue, changing the map, calling the next handler,
releasing the lock, taking the queue. A thread is a stack of frames. Closures are values of a type
`C`, whose code `body` is a `Script`: a program that makes calls to the registry and reads and
writes the rest of the world `W`.

Three things are there for the statements and are read by no step: the **number** of a call,
which an action keeps in the queue; the counter of these numbers; and the log of `Effect`s. The
cell of a `once` handler is addressed by the number of the call that made it.
-/

namespace Tauri.Events

open Rust Std.ExtTreeMap

abbrev EventId := UInt32

/-- `EventTarget`. -/
inductive EventTarget where
  | any
  | anyLabel (label : String)
  | app
  | window (label : String)
  | webview (label : String)
  | webviewWindow (label : String)
  deriving DecidableEq, Repr

/-- `EmitArgs`: the event name, raw and as JSON, and the payload as JSON. -/
structure EmitArgs where
  eventName : String
  event : String
  payload : String
  deriving DecidableEq, Repr

/-- `Event`: what a handler is called with. -/
structure Event where
  id : EventId
  data : String
  deriving DecidableEq, Repr

abbrev Filter := EventTarget → Bool

/-- `match_any_or_filter`. -/
def matchAnyOrFilter (target : EventTarget) (filter : Option Filter) : Bool :=
  target == .any || (filter.map fun f => f target).getD true

/-- The filter `AppManager::emit_to` passes on for a target; none when it targets all. -/
def emitToFilter : EventTarget → Option Filter
  | .any => none
  | .anyLabel target => some fun
    | .window label | .webview label | .webviewWindow label | .anyLabel label => label == target
    | _ => false
  | .window target => some fun
    | .anyLabel label | .window label => label == target
    | _ => false
  | .webview target => some fun
    | .anyLabel label | .webview label => label == target
    | _ => false
  | .webviewWindow target => some fun
    | .anyLabel label | .webviewWindow label => label == target
    | _ => false
  | .app => some fun t => t == .app

/-- The closure of a handler: one passed to `listen`, or the one `once` builds around the cell
that holds its handler. -/
inductive Callback (C : Type) where
  | listen (handler : C)
  | once (cell : Nat)
  deriving DecidableEq, Repr

/-- `Handler`. -/
structure Handler (C : Type) where
  target : EventTarget
  callback : Callback C
  deriving DecidableEq, Repr

/-- `Pending`: an action that found the lock taken. -/
inductive Pending (C : Type) where
  | unlisten (id : EventId)
  | listen (id : EventId) (event : String) (handler : Handler C)
  | emit (args : EmitArgs)
  deriving DecidableEq, Repr

/-- A call of `listen_with_id`, `unlisten` or `emit_filter`. -/
inductive Op (C : Type) where
  | listen (id : EventId) (event : String) (handler : Handler C)
  | unlisten (id : EventId)
  | emit (args : EmitArgs) (filter : Option Filter)

/-- The action that is left in the queue for a call. An emit is queued without its filter. -/
def Op.toPending {C : Type} : Op C → Pending C
  | .listen id event handler => .listen id event handler
  | .unlisten id => .unlisten id
  | .emit args _ => .emit args

/-- The call that `flush_pending` makes for an action. -/
def Pending.toOp {C : Type} : Pending C → Op C
  | .listen id event handler => .listen id event handler
  | .unlisten id => .unlisten id
  | .emit args => .emit args none

/-- A call to the registry from outside. -/
inductive Request (C : Type) where
  | listen (event : String) (target : EventTarget) (handler : C)
  | once (event : String) (target : EventTarget) (handler : C)
  | unlisten (id : EventId)
  | emitFilter (args : EmitArgs) (filter : Option Filter)

/-- `emit`. -/
def Request.emit {C : Type} (args : EmitArgs) : Request C := .emitFilter args none

/-- What `AppManager::emit_to` asks of the registry. -/
def Request.emitTo {C : Type} (target : EventTarget) (args : EmitArgs) : Request C :=
  .emitFilter args (emitToFilter target)

/-- The code of a handler. It goes on with the id that `listen` and `once` answer. -/
inductive Script (C W : Type) where
  | done
  | panic
  | update (f : W → W) (k : W → Script C W)
  | call (request : Request C) (k : Option EventId → Script C W)

/-- The state apart from the lock and the queue: the handler map, the id counter, the cells of
the `once` handlers, the rest of the world, and the number of the next call. -/
structure Store (C W : Type) where
  handlers : BTreeMap String (BTreeMap EventId (Handler C))
  nextEventId : EventId
  cells : Nat → Option C
  world : W
  calls : Nat

/-- `InnerListeners`. A lock that was poisoned by a panic stays taken: `try_lock` fails on it
too. -/
structure InnerListeners (C W : Type) extends Store C W where
  pending : List (Nat × Pending C)
  locked : Bool

inductive Panic where
  | handler
  | expect (msg : String)
  deriving DecidableEq, Repr

/-- The points of the code a thread can be at. -/
inductive Frame (C W : Type) where
  /-- Running the code of a handler. -/
  | script (s : Script C W)
  /-- Before the `try_lock` of `listen_with_id`, `unlisten` or `emit_filter`. -/
  | attempt (n : Nat) (op : Op C)
  /-- In `insert_pending`. -/
  | insertPending (n : Nat) (action : Pending C)
  /-- In `listen_with_id`, with the lock. -/
  | insert (n : Nat) (id : EventId) (event : String) (handler : Handler C)
  /-- In `unlisten`, with the lock. -/
  | remove (n : Nat) (id : EventId)
  /-- In the loop of `emit_filter`, with the lock: the handlers still to be called, and the
  variable `maybe_pending`. -/
  | deliver (n : Nat) (args : EmitArgs) (rest : List (EventId × Handler C)) (maybePending : Bool)
  | unlock
  | flushPending
  /-- In the loop of `flush_pending`: the actions still to be done. -/
  | replay (actions : List (Nat × Pending C))
  | panicked (p : Panic)

abbrev Stack (C W : Type) := List (Frame C W)

/-- What a run leaves in the log: a call was made, its action was queued, it took effect, a
handler was called for it. -/
inductive Effect (C : Type) where
  | issued (n : Nat) (op : Op C)
  | deferred (n : Nat)
  | applied (n : Nat)
  | called (n : Nat) (id : EventId) (handler : Handler C)

/-- An order in which a `HashMap` may list its handlers: any. -/
structure IterOrder (C : Type) where
  order : List (EventId × Handler C) → List (EventId × Handler C)
  perm : ∀ handlers, (order handlers).Perm handlers

variable {C W : Type}

namespace Store

/-- `Listeners::default`. -/
def default (world : W) : Store C W := ⟨∅, 0, fun _ => none, world, 0⟩

/-- `listen`, `once`, `unlisten` and `emit_filter` before they try the lock: the call they come
to, and the id they answer. -/
def issue (s : Store C W) : Request C → Store C W × Op C × Option EventId
  | .listen event target handler =>
    ({ s with nextEventId := s.nextEventId + 1, calls := s.calls + 1 },
      .listen s.nextEventId event ⟨target, .listen handler⟩, some s.nextEventId)
  | .once event target handler =>
    ({ s with
        nextEventId := s.nextEventId + 1
        cells := Function.update s.cells s.calls (some handler)
        calls := s.calls + 1 },
      .listen s.nextEventId event ⟨target, .once s.calls⟩, some s.nextEventId)
  | .unlisten id => ({ s with calls := s.calls + 1 }, .unlisten id, none)
  | .emitFilter args filter => ({ s with calls := s.calls + 1 }, .emit args filter, none)

/-- `lock.entry(event).or_default().insert(id, handler)`. -/
def insertHandler (s : Store C W) (id : EventId) (event : String) (handler : Handler C) :
    Store C W :=
  { s with handlers := s.handlers.upsert event ∅ fun hs => hs.insert id handler }

/-- `lock.values_mut().for_each(|handler| handler.remove(&id))`. -/
def removeHandler (s : Store C W) (id : EventId) : Store C W :=
  { s with handlers := s.handlers.map fun _ hs => hs.erase id }

/-- The handlers that an emit is for. -/
def matching (s : Store C W) (args : EmitArgs) (filter : Option Filter) :
    List (EventId × Handler C) :=
  ((s.handlers[args.eventName]?.map Std.ExtTreeMap.toList).getD []).filter fun ih =>
    matchAnyOrFilter ih.2.target filter

end Store

namespace InnerListeners

/-- `Listeners::default`. -/
def default (world : W) : InnerListeners C W := ⟨.default world, [], false⟩

/-- `listen_with_id` at its lock attempt. -/
def listenWithId (l : InnerListeners C W) (n : Nat) (id : EventId) (event : String)
    (handler : Handler C) : InnerListeners C W × Stack C W :=
  if l.locked then (l, [.insertPending n (.listen id event handler)])
  else ({ l with locked := true }, [.insert n id event handler, .unlock])

/-- `unlisten` at its lock attempt. -/
def unlisten (l : InnerListeners C W) (n : Nat) (id : EventId) :
    InnerListeners C W × Stack C W :=
  if l.locked then (l, [.insertPending n (.unlisten id)])
  else ({ l with locked := true }, [.remove n id, .unlock])

/-- `emit_filter` at its lock attempt. -/
def emitFilter (o : IterOrder C) (l : InnerListeners C W) (n : Nat) (args : EmitArgs)
    (filter : Option Filter) : InnerListeners C W × Stack C W × List (Effect C) :=
  if l.locked then (l, [.insertPending n (.emit args)], [])
  else ({ l with locked := true },
    [.deliver n args (o.order (l.toStore.matching args filter)) false], [.applied n])

/-- The closure of a handler. The one of `once` takes the handler out of its cell, runs it, and
unlistens. -/
def callback (body : C → Event → Script C W) (l : InnerListeners C W) (n : Nat) (event : Event)
    (handler : Handler C) : Option (InnerListeners C W × Stack C W × List (Effect C)) :=
  match handler.callback with
  | .listen c => some (l, [.script (body c event)], [.called n event.id handler])
  | .once cell =>
    match l.cells cell with
    | none => none
    | some c =>
      some ({ l with cells := Function.update l.cells cell none },
        [.script (body c event), .script (.call (.unlisten event.id) fun _ => .done)],
        [.called n event.id handler])

end InnerListeners

/-- The next step of a thread; there is none for a thread that has returned or panicked. -/
def step (body : C → Event → Script C W) (o : IterOrder C) (l : InnerListeners C W) :
    Stack C W → Option (InnerListeners C W × Stack C W × List (Effect C))
  | [] => none
  | .script .done :: k => some (l, k, [])
  | .script .panic :: _ => some (l, [.panicked .handler], [])
  | .script (.update f s) :: k => some ({ l with world := f l.world }, .script (s l.world) :: k, [])
  | .script (.call request s) :: k =>
    let (store, op, answer) := l.toStore.issue request
    some (⟨store, l.pending, l.locked⟩, .attempt l.calls op :: .script (s answer) :: k,
      [.issued l.calls op])
  | .attempt n (.listen id event handler) :: k =>
    let (l, fs) := l.listenWithId n id event handler
    some (l, fs ++ k, [])
  | .attempt n (.unlisten id) :: k =>
    let (l, fs) := l.unlisten n id
    some (l, fs ++ k, [])
  | .attempt n (.emit args filter) :: k =>
    let (l, fs, es) := l.emitFilter o n args filter
    some (l, fs ++ k, es)
  | .insertPending n action :: k =>
    some ({ l with pending := l.pending ++ [(n, action)] }, k, [.deferred n])
  | .insert n id event handler :: k =>
    some (⟨l.toStore.insertHandler id event handler, l.pending, l.locked⟩, k, [.applied n])
  | .remove n id :: k => some (⟨l.toStore.removeHandler id, l.pending, l.locked⟩, k, [.applied n])
  | .deliver _ _ [] maybePending :: k =>
    some (l, .unlock :: if maybePending then .flushPending :: k else k, [])
  | .deliver n args ((id, handler) :: rest) _ :: k =>
    match l.callback body n ⟨id, args.payload⟩ handler with
    | none => some (l, [.panicked (.expect "attempted to call handler more than once")], [])
    | some (l, fs, es) => some (l, fs ++ .deliver n args rest true :: k, es)
  | .unlock :: k => some ({ l with locked := false }, k, [])
  | .flushPending :: k => some ({ l with pending := [] }, .replay l.pending :: k, [])
  | .replay [] :: k => some (l, k, [])
  | .replay ((n, action) :: rest) :: k => some (l, .attempt n action.toOp :: .replay rest :: k, [])
  | .panicked _ :: _ => none

/-- The thread goes on with the code it is in. -/
def Continues (body : C → Event → Script C W) (l : InnerListeners C W) (k : Stack C W)
    (es : List (Effect C)) (l' : InnerListeners C W) (k' : Stack C W) : Prop :=
  ∃ o, step body o l k = some (l', k', es)

/-- A move of a thread: a step of the code it is in, or, outside of it, a new call or a change to
the rest of the world. -/
inductive Move (body : C → Event → Script C W) :
    InnerListeners C W → Stack C W → List (Effect C) → InnerListeners C W → Stack C W → Prop
  | step {l l' : InnerListeners C W} {k k' : Stack C W} {es : List (Effect C)} (o : IterOrder C)
      (h : step body o l k = some (l', k', es)) : Move body l k es l' k'
  | request (l : InnerListeners C W) (r : Request C) :
      Move body l [] [.issued l.calls (l.toStore.issue r).2.1]
        ⟨(l.toStore.issue r).1, l.pending, l.locked⟩ [.attempt l.calls (l.toStore.issue r).2.1]
  | world (l : InnerListeners C W) (w : W) : Move body l [] [] { l with world := w } []

/-! ### The handler map -/

namespace Store

/-- The handler registered for an event under an id. -/
def find (s : Store C W) (event : String) (id : EventId) : Option (Handler C) :=
  s.handlers[event]?.bind (·[id]?)

variable (s : Store C W)

@[simp] theorem find_default (world : W) (event : String) (id : EventId) :
    (default world : Store C W).find event id = none := by
  simp [find, default]

theorem find_insertHandler (id : EventId) (event : String) (handler : Handler C)
    (event' : String) (id' : EventId) : (s.insertHandler id event handler).find event' id' =
      if event = event' ∧ id = id' then some handler else s.find event' id' := by
  simp only [find, insertHandler, BTreeMap.upsert, getElem?_alter,
    Std.LawfulEqOrd.compare_eq_iff_eq]
  by_cases hev : event = event'
  · grind
  · simp [hev]

theorem find_removeHandler (id : EventId) (event' : String) (id' : EventId) :
    (s.removeHandler id).find event' id' = if id = id' then none else s.find event' id' := by
  simp only [find, removeHandler, getElem?_map]
  cases s.handlers[event']? <;>
    simp [getElem?_erase]

theorem mem_matching {s : Store C W} {args : EmitArgs} {filter : Option Filter} {id : EventId}
    {handler : Handler C} : (id, handler) ∈ s.matching args filter ↔
      s.find args.eventName id = some handler ∧ matchAnyOrFilter handler.target filter := by
  rw [matching, List.mem_filter, find]
  cases s.handlers[args.eventName]? with
  | none => simp
  | some hs => simp [mem_toList_iff_getElem?_eq_some]

theorem nodup_matching (args : EmitArgs) (filter : Option Filter) :
    ((s.matching args filter).map Prod.fst).Nodup := by
  have hkeys : ∀ hs : BTreeMap EventId (Handler C), (hs.toList.map Prod.fst).Nodup := by
    intro hs
    rw [map_fst_toList_eq_keys]
    exact hs.nodup_keys
  refine List.Nodup.sublist (List.filter_sublist.map _) ?_
  cases s.handlers[args.eventName]? with
  | none => simp
  | some hs => exact hkeys hs

variable (s : Store C W) (r : Request C)

@[simp] theorem issue_handlers : (s.issue r).1.handlers = s.handlers := by cases r <;> rfl

@[simp] theorem issue_calls : (s.issue r).1.calls = s.calls + 1 := by cases r <;> rfl

@[simp] theorem issue_find (event : String) (id : EventId) :
    (s.issue r).1.find event id = s.find event id := by
  rw [find, issue_handlers, find]

end Store

/-! ### What a move does -/

/-- The moves, one by one. -/
inductive Transition (body : C → Event → Script C W) :
    InnerListeners C W → Stack C W → List (Effect C) → InnerListeners C W → Stack C W → Prop
  | done (l : InnerListeners C W) (k : Stack C W) : Transition body l (.script .done :: k) [] l k
  | panic (l : InnerListeners C W) (k : Stack C W) :
      Transition body l (.script .panic :: k) [] l [.panicked .handler]
  | update (l : InnerListeners C W) (f : W → W) (s : W → Script C W) (k : Stack C W) :
      Transition body l (.script (.update f s) :: k) [] { l with world := f l.world }
        (.script (s l.world) :: k)
  | call (l : InnerListeners C W) (r : Request C) (s : Option EventId → Script C W)
      (k : Stack C W) : Transition body l (.script (.call r s) :: k)
        [.issued l.calls (l.toStore.issue r).2.1] ⟨(l.toStore.issue r).1, l.pending, l.locked⟩
        (.attempt l.calls (l.toStore.issue r).2.1 :: .script (s (l.toStore.issue r).2.2) :: k)
  | defer (l : InnerListeners C W) (n : Nat) (op : Op C) (k : Stack C W) (h : l.locked = true) :
      Transition body l (.attempt n op :: k) [] l (.insertPending n op.toPending :: k)
  | lockInsert (l : InnerListeners C W) (n : Nat) (id : EventId) (event : String)
      (handler : Handler C) (k : Stack C W) (h : l.locked = false) :
      Transition body l (.attempt n (.listen id event handler) :: k) [] { l with locked := true }
        (.insert n id event handler :: .unlock :: k)
  | lockRemove (l : InnerListeners C W) (n : Nat) (id : EventId) (k : Stack C W)
      (h : l.locked = false) : Transition body l (.attempt n (.unlisten id) :: k) []
        { l with locked := true } (.remove n id :: .unlock :: k)
  | lockEmit (l : InnerListeners C W) (n : Nat) (args : EmitArgs) (filter : Option Filter)
      (rest : List (EventId × Handler C)) (k : Stack C W) (h : l.locked = false)
      (hperm : rest.Perm (l.toStore.matching args filter)) :
      Transition body l (.attempt n (.emit args filter) :: k) [.applied n] { l with locked := true }
        (.deliver n args rest false :: k)
  | push (l : InnerListeners C W) (n : Nat) (action : Pending C) (k : Stack C W) :
      Transition body l (.insertPending n action :: k) [.deferred n]
        { l with pending := l.pending ++ [(n, action)] } k
  | insert (l : InnerListeners C W) (n : Nat) (id : EventId) (event : String)
      (handler : Handler C) (k : Stack C W) : Transition body l (.insert n id event handler :: k)
        [.applied n] ⟨l.toStore.insertHandler id event handler, l.pending, l.locked⟩ k
  | remove (l : InnerListeners C W) (n : Nat) (id : EventId) (k : Stack C W) :
      Transition body l (.remove n id :: k) [.applied n]
        ⟨l.toStore.removeHandler id, l.pending, l.locked⟩ k
  | finish (l : InnerListeners C W) (n : Nat) (args : EmitArgs) (maybePending : Bool)
      (k : Stack C W) : Transition body l (.deliver n args [] maybePending :: k) [] l
        (.unlock :: if maybePending then .flushPending :: k else k)
  | callListen (l : InnerListeners C W) (n : Nat) (args : EmitArgs) (id : EventId)
      (target : EventTarget) (c : C) (rest : List (EventId × Handler C)) (maybePending : Bool)
      (k : Stack C W) :
      Transition body l (.deliver n args ((id, ⟨target, .listen c⟩) :: rest) maybePending :: k)
        [.called n id ⟨target, .listen c⟩] l
        (.script (body c ⟨id, args.payload⟩) :: .deliver n args rest true :: k)
  | callOnce (l : InnerListeners C W) (n : Nat) (args : EmitArgs) (id : EventId)
      (target : EventTarget) (cell : Nat) (c : C) (rest : List (EventId × Handler C))
      (maybePending : Bool) (k : Stack C W) (h : l.cells cell = some c) :
      Transition body l (.deliver n args ((id, ⟨target, .once cell⟩) :: rest) maybePending :: k)
        [.called n id ⟨target, .once cell⟩] { l with cells := Function.update l.cells cell none }
        (.script (body c ⟨id, args.payload⟩) :: .script (.call (.unlisten id) fun _ => .done) ::
          .deliver n args rest true :: k)
  | callTwice (l : InnerListeners C W) (n : Nat) (args : EmitArgs) (id : EventId)
      (target : EventTarget) (cell : Nat) (rest : List (EventId × Handler C))
      (maybePending : Bool) (k : Stack C W) (h : l.cells cell = none) :
      Transition body l (.deliver n args ((id, ⟨target, .once cell⟩) :: rest) maybePending :: k) []
        l [.panicked (.expect "attempted to call handler more than once")]
  | unlock (l : InnerListeners C W) (k : Stack C W) :
      Transition body l (.unlock :: k) [] { l with locked := false } k
  | flush (l : InnerListeners C W) (k : Stack C W) :
      Transition body l (.flushPending :: k) [] { l with pending := [] } (.replay l.pending :: k)
  | replayNil (l : InnerListeners C W) (k : Stack C W) : Transition body l (.replay [] :: k) [] l k
  | replayCons (l : InnerListeners C W) (n : Nat) (action : Pending C)
      (rest : List (Nat × Pending C)) (k : Stack C W) :
      Transition body l (.replay ((n, action) :: rest) :: k) [] l
        (.attempt n action.toOp :: .replay rest :: k)
  | request (l : InnerListeners C W) (r : Request C) :
      Transition body l [] [.issued l.calls (l.toStore.issue r).2.1]
        ⟨(l.toStore.issue r).1, l.pending, l.locked⟩ [.attempt l.calls (l.toStore.issue r).2.1]
  | world (l : InnerListeners C W) (w : W) : Transition body l [] [] { l with world := w } []

variable {body : C → Event → Script C W} {l l' : InnerListeners C W} {k k' : Stack C W}
  {es : List (Effect C)}

open InnerListeners

private theorem transition_attempt {o : IterOrder C} {n : Nat} {op : Op C}
    (h : step body o l (.attempt n op :: k) = some (l', k', es)) :
    Transition body l (.attempt n op :: k) es l' k' := by
  cases hlock : l.locked with
  | true =>
    have hdefer : Transition body l (.attempt n op :: k) [] l
        (.insertPending n op.toPending :: k) := .defer l n op k hlock
    cases op <;>
      simp only [step, listenWithId, unlisten,
        emitFilter, hlock, if_true, List.cons_append, List.nil_append,
        Option.some.injEq, Prod.mk.injEq] at h <;>
      obtain ⟨rfl, rfl, rfl⟩ := h <;> exact hdefer
  | false =>
    cases op <;>
      simp only [step, listenWithId, unlisten,
        emitFilter, hlock, Bool.false_eq_true, if_false, List.cons_append,
        List.nil_append, Option.some.injEq, Prod.mk.injEq] at h <;>
      obtain ⟨rfl, rfl, rfl⟩ := h
    case listen id event handler => exact .lockInsert l n id event handler k hlock
    case unlisten id => exact .lockRemove l n id k hlock
    case emit args filter => exact .lockEmit l n args filter _ k hlock (o.perm _)

private theorem transition_deliver {o : IterOrder C} {n : Nat} {args : EmitArgs}
    {rest : List (EventId × Handler C)} {mp : Bool}
    (h : step body o l (.deliver n args rest mp :: k) = some (l', k', es)) :
    Transition body l (.deliver n args rest mp :: k) es l' k' := by
  match rest with
  | [] =>
    cases h
    exact .finish l n args mp k
  | (id, ⟨target, .listen c⟩) :: rest =>
    cases h
    exact .callListen l n args id target c rest mp k
  | (id, ⟨target, .once cell⟩) :: rest =>
    cases hcell : l.cells cell with
    | none =>
      simp only [step, callback, hcell] at h
      cases h
      exact .callTwice l n args id target cell rest mp k hcell
    | some c =>
      simp only [step, callback, hcell] at h
      cases h
      exact .callOnce l n args id target cell c rest mp k hcell

theorem Move.transition (h : Move body l k es l' k') : Transition body l k es l' k' := by
  cases h with
  | request r => exact .request l r
  | world w => exact .world l w
  | step o h =>
    match k with
    | [] => cases h
    | .script .done :: k => cases h; exact .done l _
    | .script .panic :: k => cases h; exact .panic l _
    | .script (.update f s) :: k => cases h; exact .update l f s _
    | .script (.call r s) :: k => cases h; exact .call l r s _
    | .attempt n op :: k => exact transition_attempt h
    | .insertPending n action :: k => cases h; exact .push l n action _
    | .insert n id event handler :: k => cases h; exact .insert l n id event handler _
    | .remove n id :: k => cases h; exact .remove l n id _
    | .deliver n args rest mp :: k => exact transition_deliver h
    | .unlock :: k => cases h; exact .unlock l _
    | .flushPending :: k => cases h; exact .flush l _
    | .replay [] :: k => cases h; exact .replayNil l _
    | .replay ((n, action) :: rest) :: k => cases h; exact .replayCons l n action rest _
    | .panicked p :: k => cases h

/-! ### Running calls -/

/-- A thread on its own, with the log: it runs until it has returned or its next step does not meet
the condition `ok`, at most `fuel` steps. -/
def runThread (body : C → Event → Script C W) (o : IterOrder C)
    (ok : InnerListeners C W × Stack C W → List (Effect C) → Bool) :
    Nat → InnerListeners C W × Stack C W × List (Effect C) →
      InnerListeners C W × Stack C W × List (Effect C)
  | 0, s => s
  | fuel + 1, (l, k, es) =>
    match step body o l k with
    | none => (l, k, es)
    | some (l', k', es') =>
      if ok (l, k) es' then runThread body o ok fuel (l', k', es ++ es') else (l, k, es)

/-- A thread that makes calls one after the other, each when the one before has returned. -/
def runRequests (body : C → Event → Script C W) (o : IterOrder C)
    (ok : InnerListeners C W × Stack C W → List (Effect C) → Bool) (fuel : Nat) :
    List (Request C) → InnerListeners C W × Stack C W × List (Effect C) →
      InnerListeners C W × Stack C W × List (Effect C)
  | r :: rs, (l, [], es) =>
    if ok (l, []) [.issued l.calls (l.toStore.issue r).2.1] then
      runRequests body o ok fuel rs (runThread body o ok fuel
        (⟨(l.toStore.issue r).1, l.pending, l.locked⟩, [.attempt l.calls (l.toStore.issue r).2.1],
          es ++ [.issued l.calls (l.toStore.issue r).2.1]))
    else (l, [], es)
  | _, s => s

section Running

variable {ok : InnerListeners C W × Stack C W → List (Effect C) → Bool} {o : IterOrder C}
  {s₀ : InnerListeners C W × Stack C W} {fuel : Nat}

theorem execution_runThread
    {move : InnerListeners C W → Stack C W → List (Effect C) → InnerListeners C W →
      Stack C W → Prop}
    (hmove : ∀ {l k es l' k'}, Continues body l k es l' k' → move l k es l' k')
    (h : Execution (guarded (fun s es => ok s es) (alone move)) s₀ es (l, k)) :
    Execution (guarded (fun s es => ok s es) (alone move)) s₀
      (runThread body o ok fuel (l, k, es)).2.2
      ((runThread body o ok fuel (l, k, es)).1, (runThread body o ok fuel (l, k, es)).2.1) := by
  induction fuel generalizing l k es with
  | zero => exact h
  | succ fuel ih =>
    rw [runThread]
    cases hstep : step body o l k with
    | none => exact h
    | some next =>
      by_cases hok : ok (l, k) next.2.2 = true
      · have hnext : guarded (fun s es => ok s es) (alone move) (l, k) next.2.2
            (next.1, next.2.1) := ⟨hmove ⟨o, hstep⟩, hok⟩
        simp only [hok, if_true]
        exact ih (h.next hnext)
      · simp only [hok]
        exact h

theorem Continues.move (h : Continues body l k es l' k') : Move body l k es l' k' := by
  obtain ⟨o, hstep⟩ := h
  exact .step o hstep

theorem execution_runRequests {rs : List (Request C)}
    (h : Execution (guarded (fun s es => ok s es) (alone (Move body))) s₀ es (l, k)) :
    Execution (guarded (fun s es => ok s es) (alone (Move body))) s₀
      (runRequests body o ok fuel rs (l, k, es)).2.2
      ((runRequests body o ok fuel rs (l, k, es)).1,
        (runRequests body o ok fuel rs (l, k, es)).2.1) := by
  induction rs generalizing l k es with
  | nil => cases k <;> exact h
  | cons r rs ih =>
    cases k with
    | nil =>
      rw [runRequests]
      split_ifs with hok
      · have hnext : guarded (fun s es => ok s es) (alone (Move body)) (l, [])
            [.issued l.calls (l.toStore.issue r).2.1]
            (⟨(l.toStore.issue r).1, l.pending, l.locked⟩,
              [.attempt l.calls (l.toStore.issue r).2.1]) := ⟨.request l r, hok⟩
        exact ih (execution_runThread Continues.move (h.next hnext))
      · exact h
    | cons f k => exact h

end Running

namespace Sample

/-- The iteration order of an ordered map. -/
def inOrder : IterOrder Nat := ⟨id, fun _ => .rfl⟩

/-- Code that makes the given calls. -/
def makes (requests : List (Request Nat)) : Script Nat Unit :=
  requests.foldr (fun r s => .call r fun _ => s) .done

def args (event : String) : EmitArgs := ⟨event, event, "null"⟩

/-- Running the given calls from an empty registry. -/
def run (body : Nat → Event → Script Nat Unit)
    (ok : InnerListeners Nat Unit × Stack Nat Unit → List (Effect Nat) → Bool)
    (rs : List (Request Nat)) : InnerListeners Nat Unit × Stack Nat Unit × List (Effect Nat) :=
  runRequests body inOrder ok 40 rs (.default (), [], [])

variable (body : Nat → Event → Script Nat Unit)

theorem execution_run
    (ok : InnerListeners Nat Unit × Stack Nat Unit → List (Effect Nat) → Bool)
    (rs : List (Request Nat)) :
    Execution (guarded (fun s es => ok s es) (alone (Move body))) (.default (), [])
      (run body ok rs).2.2 ((run body ok rs).1, (run body ok rs).2.1) :=
  execution_runRequests .start

/-- An emit outside of the registry. -/
def emit (body : Nat → Event → Script Nat Unit) (l : InnerListeners Nat Unit) (args : EmitArgs) :
    InnerListeners Nat Unit × Stack Nat Unit × List (Effect Nat) :=
  runThread body inOrder (fun _ _ => true) 40
    (⟨(l.toStore.issue (.emit args)).1, l.pending, l.locked⟩, [.attempt l.calls (.emit args none)],
      [])

theorem execution_emit (l : InnerListeners Nat Unit)
    (args : EmitArgs) :
    Execution (alone (Continues body))
      (⟨(l.toStore.issue (.emit args)).1, l.pending, l.locked⟩,
        [.attempt l.calls (.emit args none)])
      (emit body l args).2.2 ((emit body l args).1, (emit body l args).2.1) :=
  (execution_runThread id .start).mono And.left

end Sample

end Tauri.Events
