import Tauri.Event.Listeners

/-!
# A single thread

With one thread the lock is only ever found taken by the emit that is calling a handler, and the
machine of `Listeners` does no more than the following, simpler one.

A `Turn` says what the thread still has to do. While it **delivers** an event, the calls its
handlers make are added to the end of the `queue`. When the delivery is over, the queue goes in
front of what is `waiting` from the deliveries around it, and the calls are done one after the
other from the front. So the list of what is to be done is a queue while an event is delivered and
a stack of such queues over time.

`Refines` relates the two machines, and `Refines.move` shows that every move of the thread is a
step of the turn with the same log, or is not visible in it.
-/

namespace Tauri.Events

open Rust List

variable {C W : Type}

/-- What a single thread is in the middle of: nothing, delivering an event, with the handlers
still to be called and the rest of the code of the current one, or a panic. -/
inductive Task (C W : Type) where
  | idle
  | delivering (n : Nat) (args : EmitArgs) (rest : List (EventId × Handler C))
      (scripts : List (Script C W))
  | panicked (p : Panic)

/-- The state of a single thread. -/
structure Turn (C W : Type) where
  store : Store C W
  task : Task C W
  /-- The calls made during the delivery. -/
  queue : List (Nat × Op C)
  /-- The calls to be done afterwards. -/
  waiting : List (Nat × Op C)

/-- The call as it comes back from the queue. -/
def Op.replayed (op : Op C) : Op C := op.toPending.toOp

/-- The steps of a single thread. -/
inductive Turn.Step (body : C → Event → Script C W) : Turn C W → List (Effect C) → Turn C W → Prop
  | request (s : Store C W) (r : Request C) : Step body ⟨s, .idle, [], []⟩
      [.issued s.calls (s.issue r).2.1] ⟨(s.issue r).1, .idle, [], [(s.calls, (s.issue r).2.1)]⟩
  | world (s : Store C W) (w : W) :
      Step body ⟨s, .idle, [], []⟩ [] ⟨{ s with world := w }, .idle, [], []⟩
  | insert (s : Store C W) (n : Nat) (id : EventId) (event : String) (handler : Handler C)
      (waiting : List (Nat × Op C)) :
      Step body ⟨s, .idle, [], (n, .listen id event handler) :: waiting⟩ [.applied n]
        ⟨s.insertHandler id event handler, .idle, [], waiting⟩
  | remove (s : Store C W) (n : Nat) (id : EventId) (waiting : List (Nat × Op C)) :
      Step body ⟨s, .idle, [], (n, .unlisten id) :: waiting⟩ [.applied n]
        ⟨s.removeHandler id, .idle, [], waiting⟩
  | deliver (s : Store C W) (n : Nat) (args : EmitArgs) (filter : Option Filter)
      (rest : List (EventId × Handler C)) (waiting : List (Nat × Op C))
      (hperm : rest.Perm (s.matching args filter)) :
      Step body ⟨s, .idle, [], (n, .emit args filter) :: waiting⟩ [.applied n]
        ⟨s, .delivering n args rest [], [], waiting⟩
  | callListen (s : Store C W) (n : Nat) (args : EmitArgs) (id : EventId) (target : EventTarget)
      (c : C) (rest : List (EventId × Handler C)) (queue waiting : List (Nat × Op C)) :
      Step body ⟨s, .delivering n args ((id, ⟨target, .listen c⟩) :: rest) [], queue, waiting⟩
        [.called n id ⟨target, .listen c⟩]
        ⟨s, .delivering n args rest [body c ⟨id, args.payload⟩], queue, waiting⟩
  | callOnce (s : Store C W) (n : Nat) (args : EmitArgs) (id : EventId) (target : EventTarget)
      (cell : Nat) (c : C) (rest : List (EventId × Handler C)) (queue waiting : List (Nat × Op C))
      (hcell : s.cells cell = some c) :
      Step body ⟨s, .delivering n args ((id, ⟨target, .once cell⟩) :: rest) [], queue, waiting⟩
        [.called n id ⟨target, .once cell⟩]
        ⟨{ s with cells := Function.update s.cells cell none },
          .delivering n args rest
            [body c ⟨id, args.payload⟩, .call (.unlisten id) fun _ => .done], queue, waiting⟩
  | callTwice (s : Store C W) (n : Nat) (args : EmitArgs) (id : EventId) (target : EventTarget)
      (cell : Nat) (rest : List (EventId × Handler C)) (queue waiting : List (Nat × Op C))
      (hcell : s.cells cell = none) :
      Step body ⟨s, .delivering n args ((id, ⟨target, .once cell⟩) :: rest) [], queue, waiting⟩ []
        ⟨s, .panicked (.expect "attempted to call handler more than once"), queue, waiting⟩
  | done (s : Store C W) (n : Nat) (args : EmitArgs) (rest : List (EventId × Handler C))
      (scripts : List (Script C W)) (queue waiting : List (Nat × Op C)) :
      Step body ⟨s, .delivering n args rest (.done :: scripts), queue, waiting⟩ []
        ⟨s, .delivering n args rest scripts, queue, waiting⟩
  | panic (s : Store C W) (n : Nat) (args : EmitArgs) (rest : List (EventId × Handler C))
      (scripts : List (Script C W)) (queue waiting : List (Nat × Op C)) :
      Step body ⟨s, .delivering n args rest (.panic :: scripts), queue, waiting⟩ []
        ⟨s, .panicked .handler, queue, waiting⟩
  | update (s : Store C W) (n : Nat) (args : EmitArgs) (rest : List (EventId × Handler C))
      (f : W → W) (script : W → Script C W) (scripts : List (Script C W))
      (queue waiting : List (Nat × Op C)) :
      Step body ⟨s, .delivering n args rest (.update f script :: scripts), queue, waiting⟩ []
        ⟨{ s with world := f s.world }, .delivering n args rest (script s.world :: scripts), queue,
          waiting⟩
  | call (s : Store C W) (n : Nat) (args : EmitArgs) (rest : List (EventId × Handler C))
      (r : Request C) (script : Option EventId → Script C W) (scripts : List (Script C W))
      (queue waiting : List (Nat × Op C)) :
      Step body ⟨s, .delivering n args rest (.call r script :: scripts), queue, waiting⟩
        [.issued s.calls (s.issue r).2.1]
        ⟨(s.issue r).1, .delivering n args rest (script (s.issue r).2.2 :: scripts),
          queue ++ [(s.calls, (s.issue r).2.1.replayed)], waiting⟩
  | queued (t : Turn C W) (m : Nat) (h : m ∈ t.queue.map (·.1)) : Step body t [.deferred m] t
  | finish (s : Store C W) (n : Nat) (args : EmitArgs) (queue waiting : List (Nat × Op C)) :
      Step body ⟨s, .delivering n args [] [], queue, waiting⟩ [] ⟨s, .idle, [], queue ++ waiting⟩

/-! ### The thread and its turn -/

/-- The calls that actions come back as. -/
def redo (actions : List (Nat × Pending C)) : List (Nat × Op C) :=
  actions.map fun na => (na.1, na.2.toOp)

@[simp] theorem redo_nil : redo ([] : List (Nat × Pending C)) = [] := rfl

@[simp] theorem redo_cons (n : Nat) (action : Pending C) (actions : List (Nat × Pending C)) :
    redo ((n, action) :: actions) = (n, action.toOp) :: redo actions := rfl

@[simp] theorem redo_append (as bs : List (Nat × Pending C)) :
    redo (as ++ bs) = redo as ++ redo bs := map_append

/-- The loops of `flush_pending` that a thread is in, the innermost first. -/
def replays (batches : List (List (Nat × Pending C))) : Stack C W := batches.map .replay

@[simp] theorem replays_cons (batch : List (Nat × Pending C))
    (batches : List (List (Nat × Pending C))) :
    (replays (batch :: batches) : Stack C W) = .replay batch :: replays batches := rfl

/-- The actions that a frame has still to do. -/
def Frame.waiting : Frame C W → List (Nat × Pending C)
  | .replay actions => actions
  | _ => []

/-- The handlers that a frame is still going to call, with their event. -/
def Frame.toCall : Frame C W → List (String × EventId)
  | .deliver _ args rest _ => rest.map fun ih => (args.eventName, ih.1)
  | _ => []

/-- The handlers still to be called, with their event. -/
def Task.toCall : Task C W → List (String × EventId)
  | .delivering _ args rest _ => rest.map fun ih => (args.eventName, ih.1)
  | _ => []

variable (bs)

@[simp] theorem flatMap_waiting_replays :
    (replays bs : Stack C W).flatMap Frame.waiting = bs.flatten := by
  induction bs with
  | nil => rfl
  | cons b bs ih => rw [replays_cons, flatMap_cons, ih, flatten_cons, Frame.waiting]

@[simp] theorem flatMap_toCall_replays :
    (replays bs : Stack C W).flatMap Frame.toCall = [] := by
  simp [replays, Frame.toCall]

variable {bs}

variable (scripts : List (Script C W))

@[simp] theorem flatMap_waiting_scripts :
    (scripts.map .script : Stack C W).flatMap Frame.waiting = [] := by
  simp [Frame.waiting]

@[simp] theorem flatMap_toCall_scripts :
    (scripts.map .script : Stack C W).flatMap Frame.toCall = [] := by
  simp [Frame.toCall]

/-- The states of the shared data and of the thread in which a given turn is. -/
inductive Refines : InnerListeners C W × Stack C W → Turn C W → Prop
  | idle (s : Store C W) (bs : List (List (Nat × Pending C))) :
      Refines (⟨s, [], false⟩, replays bs) ⟨s, .idle, [], redo bs.flatten⟩
  | attempting (s : Store C W) (n : Nat) (op : Op C) (bs : List (List (Nat × Pending C))) :
      Refines (⟨s, [], false⟩, .attempt n op :: replays bs)
        ⟨s, .idle, [], (n, op) :: redo bs.flatten⟩
  | inserting (s : Store C W) (n : Nat) (id : EventId) (event : String) (handler : Handler C)
      (bs : List (List (Nat × Pending C))) :
      Refines (⟨s, [], true⟩, .insert n id event handler :: .unlock :: replays bs)
        ⟨s, .idle, [], (n, .listen id event handler) :: redo bs.flatten⟩
  | removing (s : Store C W) (n : Nat) (id : EventId) (bs : List (List (Nat × Pending C))) :
      Refines (⟨s, [], true⟩, .remove n id :: .unlock :: replays bs)
        ⟨s, .idle, [], (n, .unlisten id) :: redo bs.flatten⟩
  | releasing (s : Store C W) (bs : List (List (Nat × Pending C))) :
      Refines (⟨s, [], true⟩, .unlock :: replays bs) ⟨s, .idle, [], redo bs.flatten⟩
  | delivering (s : Store C W) (pending : List (Nat × Pending C)) (n : Nat) (args : EmitArgs)
      (rest : List (EventId × Handler C)) (scripts : List (Script C W)) (maybePending : Bool)
      (bs : List (List (Nat × Pending C)))
      (h : maybePending = false → scripts = [] ∧ pending = []) :
      Refines (⟨s, pending, true⟩,
          scripts.map .script ++ .deliver n args rest maybePending :: replays bs)
        ⟨s, .delivering n args rest scripts, redo pending, redo bs.flatten⟩
  | deferring (s : Store C W) (pending : List (Nat × Pending C)) (n : Nat) (args : EmitArgs)
      (rest : List (EventId × Handler C)) (scripts : List (Script C W)) (m : Nat) (op : Op C)
      (bs : List (List (Nat × Pending C))) :
      Refines (⟨s, pending, true⟩,
          .attempt m op :: (scripts.map .script ++ .deliver n args rest true :: replays bs))
        ⟨s, .delivering n args rest scripts, redo pending ++ [(m, op.replayed)], redo bs.flatten⟩
  | pushing (s : Store C W) (pending : List (Nat × Pending C)) (n : Nat) (args : EmitArgs)
      (rest : List (EventId × Handler C)) (scripts : List (Script C W)) (m : Nat)
      (action : Pending C) (bs : List (List (Nat × Pending C))) :
      Refines (⟨s, pending, true⟩,
          .insertPending m action ::
            (scripts.map .script ++ .deliver n args rest true :: replays bs))
        ⟨s, .delivering n args rest scripts, redo pending ++ [(m, action.toOp)], redo bs.flatten⟩
  | finishing (s : Store C W) (pending : List (Nat × Pending C))
      (bs : List (List (Nat × Pending C))) :
      Refines (⟨s, pending, true⟩, .unlock :: .flushPending :: replays bs)
        ⟨s, .idle, [], redo (pending ++ bs.flatten)⟩
  | flushing (s : Store C W) (pending : List (Nat × Pending C))
      (bs : List (List (Nat × Pending C))) :
      Refines (⟨s, pending, false⟩, .flushPending :: replays bs)
        ⟨s, .idle, [], redo (pending ++ bs.flatten)⟩
  | panicked (l : InnerListeners C W) (p : Panic) (t : Turn C W) (h : t.task = .panicked p) :
      Refines (l, [.panicked p]) t

/-- The turn can be read off the shared data and the stack. This is so whenever a call is made. -/
structure Aligned (l : InnerListeners C W) (k : Stack C W) (t : Turn C W) : Prop where
  store : t.store = l.toStore
  queue : t.queue = redo l.pending
  waiting : t.waiting = redo (k.flatMap Frame.waiting)
  toCall : t.task.toCall = k.flatMap Frame.toCall

variable {body : C → Event → Script C W}

/-- A move from `(l, k)` while the turn is `t`: a step of the turn, or nothing that it shows. -/
def Follows (body : C → Event → Script C W) (l : InnerListeners C W) (k : Stack C W)
    (es : List (Effect C)) (l' : InnerListeners C W) (k' : Stack C W) (t : Turn C W) : Prop :=
  (es = [] ∧ Refines (l', k') t) ∨ ∃ t', t.Step body es t' ∧ Refines (l', k') t' ∧
    ∀ n op, .issued n op ∈ es → Aligned l k t

variable {s : Store C W} {bs : List (List (Nat × Pending C))} {es : List (Effect C)}
  {l' : InnerListeners C W} {k' : Stack C W}

private theorem follows_idle (h : Transition body ⟨s, [], false⟩ (replays bs) es l' k') :
    Follows body ⟨s, [], false⟩ (replays bs) es l' k' ⟨s, .idle, [], redo bs.flatten⟩ := by
  match bs with
  | [] =>
    rw [replays, map_nil] at h
    cases h with
    | request r =>
      refine .inr ⟨_, .request s r, .attempting _ _ _ [], fun _ _ _ => ?_⟩
      exact ⟨rfl, rfl, rfl, rfl⟩
    | world w => exact .inr ⟨_, .world s w, .idle _ [], by simp⟩
  | [] :: bs =>
    cases h
    exact .inl ⟨rfl, .idle s bs⟩
  | ((n, action) :: rest) :: bs =>
    cases h
    exact .inl ⟨rfl, .attempting s n action.toOp (rest :: bs)⟩

private theorem follows_attempting {n : Nat} {op : Op C}
    (h : Transition body ⟨s, [], false⟩ (.attempt n op :: replays bs) es l' k') :
    Follows body ⟨s, [], false⟩ (.attempt n op :: replays bs) es l' k'
      ⟨s, .idle, [], (n, op) :: redo bs.flatten⟩ := by
  cases h with
  | defer n op k h => cases h
  | lockInsert n id event handler k => exact .inl ⟨rfl, .inserting s n id event handler bs⟩
  | lockRemove n id k => exact .inl ⟨rfl, .removing s n id bs⟩
  | lockEmit n args filter rest k h hperm =>
    refine .inr ⟨_, .deliver s n args filter rest _ hperm, ?_, by simp⟩
    exact .delivering s [] n args rest [] false bs fun _ => ⟨rfl, rfl⟩

private theorem follows_delivering {pending : List (Nat × Pending C)} {n : Nat} {args : EmitArgs}
    {rest : List (EventId × Handler C)} {scripts : List (Script C W)} {maybePending : Bool}
    (hmaybe : maybePending = false → scripts = [] ∧ pending = [])
    (h : Transition body ⟨s, pending, true⟩
      (scripts.map .script ++ .deliver n args rest maybePending :: replays bs) es l' k') :
    Follows body ⟨s, pending, true⟩
      (scripts.map .script ++ .deliver n args rest maybePending :: replays bs) es l' k'
      ⟨s, .delivering n args rest scripts, redo pending, redo bs.flatten⟩ := by
  match scripts with
  | [] =>
    rw [map_nil, nil_append] at h
    cases h with
    | finish =>
      cases maybePending with
      | false =>
        obtain ⟨-, rfl⟩ := hmaybe rfl
        exact .inr ⟨_, .finish s n args _ _, .releasing s bs, by simp⟩
      | true =>
        refine .inr ⟨_, .finish s n args _ _, ?_, by simp⟩
        rw [← redo_append]
        exact .finishing s pending bs
    | callListen n args id target c rest =>
      refine .inr ⟨_, .callListen s n args id target c rest _ _, ?_, by simp⟩
      exact .delivering s pending n args rest [_] true bs (by simp)
    | callOnce n args id target cell c rest mp k hcell =>
      refine .inr ⟨_, .callOnce s n args id target cell c rest _ _ hcell, ?_, by simp⟩
      exact .delivering _ pending n args rest [_, _] true bs (by simp)
    | callTwice n args id target cell rest mp k hcell =>
      exact .inr ⟨_, .callTwice s n args id target cell rest _ _ hcell, .panicked _ _ _ rfl,
        by simp⟩
  | script :: scripts =>
    -- the code of a handler runs only after `maybe_pending` was set
    have hset : maybePending = true := by
      by_contra hne
      exact cons_ne_nil _ _ (hmaybe (Bool.eq_false_iff.mpr hne)).1
    subst hset
    rw [map_cons, cons_append] at h
    cases h with
    | done k =>
      exact .inr ⟨_, .done s n args rest scripts _ _,
        .delivering s pending n args rest scripts true bs (by simp), by simp⟩
    | panic k => exact .inr ⟨_, .panic s n args rest scripts _ _, .panicked _ _ _ rfl, by simp⟩
    | update f script k =>
      refine .inr ⟨_, .update s n args rest f script scripts _ _, ?_, by simp⟩
      exact .delivering _ pending n args rest (_ :: scripts) true bs (by simp)
    | call r script k =>
      refine .inr ⟨_, .call s n args rest r script scripts _ _, ?_, fun _ _ _ => ?_⟩
      · exact .deferring _ pending n args rest (_ :: scripts) _ _ bs
      · exact ⟨rfl, rfl, by simp [Frame.waiting], by simp [Frame.toCall, Task.toCall]⟩

/-- **A single thread takes its turn**: every move of the machine is a step of the turn with the
same log, or is not visible in it. -/
theorem Refines.move {l : InnerListeners C W} {k : Stack C W} {t : Turn C W}
    (h : Refines (l, k) t) (hmove : Move body l k es l' k') : Follows body l k es l' k' t := by
  have htrans := hmove.transition
  cases h with
  | idle => exact follows_idle htrans
  | attempting => exact follows_attempting htrans
  | inserting s n id event handler bs =>
    cases htrans
    exact .inr ⟨_, .insert s n id event handler _, .releasing _ bs, by simp⟩
  | removing s n id bs =>
    cases htrans
    exact .inr ⟨_, .remove s n id _, .releasing _ bs, by simp⟩
  | releasing s bs =>
    cases htrans
    exact .inl ⟨rfl, .idle s bs⟩
  | delivering _ _ _ _ _ _ _ _ hmaybe => exact follows_delivering hmaybe htrans
  | deferring s pending n args rest scripts m op bs =>
    cases htrans with
    | defer => exact .inl ⟨rfl, .pushing s pending n args rest scripts m op.toPending bs⟩
    | lockInsert _ _ _ _ _ h | lockRemove _ _ _ h | lockEmit _ _ _ _ _ h => cases h
  | pushing s pending n args rest scripts m action bs =>
    cases htrans
    refine .inr ⟨_, .queued _ m (by simp), ?_, by simp⟩
    have hqueue : redo pending ++ [(m, action.toOp)] = redo (pending ++ [(m, action)]) := by simp
    rw [hqueue]
    exact .delivering s _ n args rest scripts true bs (by simp)
  | finishing s pending bs =>
    cases htrans
    exact .inl ⟨rfl, .flushing s pending bs⟩
  | flushing s pending bs =>
    cases htrans
    exact .inl ⟨rfl, .idle s (pending :: bs)⟩
  | panicked => cases htrans

/-- A condition on the calls of a thread that its turn can see. -/
structure Visible (cond : InnerListeners C W × Stack C W → List (Effect C) → Prop)
    (cond' : Turn C W → List (Effect C) → Prop) : Prop where
  aligned : ∀ {l k t es}, Aligned l k t → cond (l, k) es → cond' t es
  quiet : ∀ {t es}, (∀ n op, .issued n op ∉ es) → cond' t es

/-- **Runs of a single thread are runs of its turn**, also under a condition on the calls that are
made. -/
theorem exists_turn {cond : InnerListeners C W × Stack C W → List (Effect C) → Prop}
    {cond' : Turn C W → List (Effect C) → Prop} (hcond : Visible cond cond')
    {s₀ s : InnerListeners C W × Stack C W} {t₀ : Turn C W} (hstart : Refines s₀ t₀)
    (h : Execution (guarded cond (alone (Move body))) s₀ es s) :
    ∃ t, Execution (guarded cond' (Turn.Step body)) t₀ es t ∧ Refines s t := by
  refine h.simulate hstart fun {s es s' t} hR hstep => ?_
  obtain ⟨hmove, hmeets⟩ := hstep
  rcases hR.move hmove with hquiet | ⟨t', hturn, hR', hal⟩
  · exact .inl hquiet
  · refine .inr ⟨t', ⟨hturn, ?_⟩, hR'⟩
    by_cases hiss : ∃ n op, .issued n op ∈ es
    · obtain ⟨n, op, hmem⟩ := hiss
      exact hcond.aligned (hal n op hmem) hmeets
    · push Not at hiss
      exact hcond.quiet hiss

theorem Refines.of_nil {l : InnerListeners C W} {t : Turn C W} (h : Refines (l, []) t) :
    t = ⟨l.toStore, .idle, [], []⟩ ∧ l.pending = [] ∧ l.locked = false := by
  generalize hk : (l, ([] : Stack C W)) = s at h
  cases h with
  | idle s bs =>
    obtain ⟨rfl, hbs⟩ := Prod.mk.inj hk
    cases bs with
    | nil => exact ⟨rfl, rfl, rfl⟩
    | cons => cases hbs
  | delivering _ _ _ _ _ scripts => cases scripts <;> cases (Prod.mk.inj hk).2
  | _ => cases (Prod.mk.inj hk).2

end Tauri.Events
