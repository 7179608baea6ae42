import Tauri.Event.Turn

/-!
# Calls from inside handlers

What a single thread makes of the calls its handlers make.

**Order.** A call from inside a handler goes to the end of the queue, but in front of everything
that is waiting from the deliveries around it. It overtakes the calls that wait there. This changes
the outcome only if one of them is for the same id, so the handlers are registered and removed as
if all calls were done in the order they were made in every run without such an overtaking.

**Delivery.** The thread delivers an event to every handler that is registered for it when the call
is made, once, before it does anything else; and when the outermost emit returns nothing is left
to be done.
-/

namespace Tauri.Events

open Rust List

variable {C W : Type}

/-! ### The order of calls -/

/-- The id a call registers or removes. -/
def Op.id? : Op C → Option EventId
  | .listen id _ _ => some id
  | .unlisten id => some id
  | .emit _ _ => none

/-- What a call does to the handler map, when it is done. -/
def Op.register (handlers : BTreeMap String (BTreeMap EventId (Handler C))) :
    Op C → BTreeMap String (BTreeMap EventId (Handler C))
  | .listen id event handler => handlers.upsert event ∅ fun hs => hs.insert id handler
  | .unlisten id => handlers.map fun _ hs => hs.erase id
  | .emit _ _ => handlers

/-- The calls of a run, in the order they were made. -/
def issuedOps (es : List (Effect C)) : List (Op C) :=
  es.filterMap fun
    | .issued _ op => some op
    | _ => none

/-- The handler map after the calls of a run, done in the order they were made. -/
def registered (es : List (Effect C)) : BTreeMap String (BTreeMap EventId (Handler C)) :=
  (issuedOps es).foldl Op.register ∅

variable (handlers : BTreeMap String (BTreeMap EventId (Handler C)))

@[simp] theorem Op.register_replayed (op : Op C) :
    Op.register handlers op.replayed = Op.register handlers op := by
  cases op <;> rfl

variable {op : Op C}

open BTreeMap

theorem Op.register_comm {op' : Op C} (h : ∀ id, op.id? = some id → op'.id? ≠ some id) :
    Op.register (Op.register handlers op) op' = Op.register (Op.register handlers op') op := by
  match op, op' with
  | .emit _ _, _ => rfl
  | .listen _ _ _, .emit _ _ | .unlisten _, .emit _ _ => rfl
  | .listen id event handler, .listen id' event' handler' =>
    have hne : id' ≠ id := fun heq => h id rfl (congrArg some heq)
    simp only [Op.register]
    exact upsert_comm handlers ∅ fun _ hs =>
      insert_comm hs handler handler' hne.symm
  | .listen id event handler, .unlisten id' =>
    have hne : id' ≠ id := fun heq => h id rfl (congrArg some heq)
    simp only [Op.register]
    exact map_upsert handlers event (Std.ExtTreeMap.erase_empty) fun hs =>
      erase_insert_comm hs handler hne.symm
  | .unlisten id, .listen id' event handler =>
    have hne : id' ≠ id := fun heq => h id rfl (congrArg some heq)
    simp only [Op.register]
    exact (map_upsert handlers event (Std.ExtTreeMap.erase_empty) fun hs =>
      erase_insert_comm hs handler hne).symm
  | .unlisten id, .unlisten id' =>
    refine Std.ExtTreeMap.ext_getElem? fun event => ?_
    simp only [Op.register, Std.ExtTreeMap.getElem?_map, Option.map_map]
    congr 1
    funext hs
    exact erase_comm hs id id'

theorem foldl_register_comm {ops : List (Op C)}
    (h : ∀ op' ∈ ops, ∀ id, op.id? = some id → op'.id? ≠ some id) :
    ops.foldl Op.register (Op.register handlers op) =
      Op.register (ops.foldl Op.register handlers) op := by
  induction ops generalizing handlers with
  | nil => rfl
  | cons op' ops ih =>
    obtain ⟨hop', hops⟩ := forall_mem_cons.mp h
    rw [foldl_cons, foldl_cons, Op.register_comm handlers hop', ih _ hops]

theorem registered_append (es es' : List (Effect C)) :
    registered (es ++ es') = (issuedOps es').foldl Op.register (registered es) := by
  simp [registered, issuedOps, filterMap_append, foldl_append]

/-- A call that registers or removes an id is made while no earlier call for that id is waiting
in a batch that is being flushed. -/
def NotOvertaking (s : InnerListeners C W × Stack C W) (es : List (Effect C)) : Prop :=
  ∀ n op id, .issued n op ∈ es → op.id? = some id →
    ∀ na ∈ s.2.flatMap Frame.waiting, na.2.toOp.id? ≠ some id

/-- `NotOvertaking`, seen from the turn. -/
def Turn.NotOvertaking (t : Turn C W) (es : List (Effect C)) : Prop :=
  ∀ n op id, .issued n op ∈ es → op.id? = some id → ∀ na ∈ t.waiting, na.2.id? ≠ some id

theorem visible_notOvertaking : Visible (NotOvertaking (C := C) (W := W)) Turn.NotOvertaking where
  aligned := by
    intro l k t es hal h n op id hiss hid na hna
    rw [hal.waiting] at hna
    obtain ⟨ma, hma, rfl⟩ := mem_map.mp hna
    exact h n op id hiss hid ma hma
  quiet := fun hno n op _ hiss => absurd hiss (hno n op)

/-- The handler map once the calls of a turn are done. -/
def Turn.outcome (t : Turn C W) : BTreeMap String (BTreeMap EventId (Handler C)) :=
  ((t.queue ++ t.waiting).map Prod.snd).foldl Op.register t.store.handlers

variable {body : C → Event → Script C W}

variable {t t' : Turn C W} {es : List (Effect C)}

theorem Turn.Step.outcome (h : t.Step body es t') (hcond : t.NotOvertaking es) :
    t'.outcome = (issuedOps es).foldl Op.register t.outcome := by
  cases h with
  | request s r =>
    simp only [Turn.outcome, append_nil, nil_append, map_nil, map_cons,
      foldl_nil, foldl_cons, Store.issue_handlers, issuedOps, filterMap_cons,
      filterMap_nil]
  | call s _ _ _ r _ _ _ waiting =>
    -- the new call comes before the waiting ones, and they are for other ids
    have hoths : ∀ op' ∈ waiting.map Prod.snd, ∀ id,
        (s.issue r).2.1.id? = some id → op'.id? ≠ some id := by
      intro op' hop' id hid
      obtain ⟨na, hna, rfl⟩ := mem_map.mp hop'
      exact hcond s.calls _ id (mem_singleton_self _) hid na hna
    simp only [Turn.outcome, map_append, map_cons, map_nil, foldl_append,
      foldl_cons, foldl_nil, Store.issue_handlers, Op.register_replayed]
    exact foldl_register_comm _ hoths
  | finish => rfl
  | _ => rfl

theorem Turn.outcome_eq_registered {world : W}
    (h : Execution (guarded Turn.NotOvertaking (Turn.Step body)) ⟨.default world, .idle, [], []⟩
      es t) : t.outcome = registered es := by
  refine h.invariant (I := fun es t => t.outcome = registered es) rfl ?_
  rintro es es' t t' - hI ⟨hstep, hcond⟩
  rw [hstep.outcome hcond, hI, registered_append]

/-- No handler is registered under the id. -/
def Unregistered (id : EventId) (handlers : BTreeMap String (BTreeMap EventId (Handler C))) :
    Prop :=
  ∀ event : String, handlers[event]?.bind (·[id]?) = none

theorem unregistered_unlisten (id : EventId)
    (handlers : BTreeMap String (BTreeMap EventId (Handler C))) :
    Unregistered id (Op.register handlers (.unlisten id)) := by
  intro event
  rw [Op.register, Std.ExtTreeMap.getElem?_map]
  cases handlers[event]? <;> simp

variable {handlers} {id : EventId} {es' : List (Effect C)}

theorem Unregistered.register (h : Unregistered id handlers)
    (hop : ∀ event handler, op ≠ .listen id event handler) :
    Unregistered id (Op.register handlers op) := by
  intro event
  have hold := h event
  match op with
  | .emit _ _ => exact hold
  | .unlisten id' =>
    rw [Op.register, Std.ExtTreeMap.getElem?_map]
    cases hs : handlers[event]? with
    | none => rfl
    | some hs' =>
      rw [hs, Option.bind_some] at hold
      simp [Std.ExtTreeMap.getElem?_erase, hold]
  | .listen id' event' handler =>
    have hne : id' ≠ id := by
      rintro rfl
      exact hop event' handler rfl
    rw [Op.register, getElem?_upsert]
    split_ifs with hev
    · grind
    · exact hold

theorem Unregistered.foldl_register {ops : List (Op C)} (h : Unregistered id handlers)
    (hops : ∀ event handler, .listen id event handler ∉ ops) :
    Unregistered id (ops.foldl Op.register handlers) := by
  induction ops generalizing handlers with
  | nil => exact h
  | cons op ops ih =>
    refine ih (h.register fun event handler heq => ?_) fun event handler hmem => ?_
    · exact hops event handler (heq ▸ mem_cons_self)
    · exact hops event handler (mem_cons_of_mem op hmem)

theorem mem_issuedOps : op ∈ issuedOps es ↔ ∃ n, .issued n op ∈ es := by
  rw [issuedOps, mem_filterMap]
  constructor
  · grind
  · rintro ⟨n, hn⟩
    exact ⟨_, hn, rfl⟩

theorem unregistered_registered {n : Nat}
    (h : ∀ m event handler, .issued m (.listen id event handler) ∉ es') :
    Unregistered id (registered (es ++ .issued n (.unlisten id) :: es')) := by
  rw [registered_append]
  refine (unregistered_unlisten id _).foldl_register fun event handler hmem => ?_
  obtain ⟨m, hm⟩ := mem_issuedOps.mp hmem
  exact h m event handler hm

namespace Sample

/-- The code of three handlers: the first emits `y` and then listens to `z`, the second removes
the given id, the third does nothing. -/
def listensAfterEmit (id : EventId) : Nat → Event → Script Nat Unit
  | 0, _ => makes [.emit (args "y"), .listen "z" .any 2]
  | 1, _ => makes [.unlisten id]
  | _, _ => .done

/-- Handlers for `x` and `y`, and an emit of `x`. -/
def nestedRequests : List (Request Nat) :=
  [.listen "x" .any 0, .listen "y" .any 1, .emit (args "x")]

/-- The registry with handlers for `x` and `y`. -/
def listening : InnerListeners Nat Unit :=
  (run (listensAfterEmit 1) (fun _ _ => true) [.listen "x" .any 0, .listen "y" .any 1]).1

/-- A test for `NotOvertaking`. -/
def notOvertaking (s : InnerListeners Nat Unit × Stack Nat Unit) (es : List (Effect Nat)) : Bool :=
  (issuedOps es).all fun op =>
    (s.2.flatMap Frame.waiting).all fun na => op.id?.isNone || na.2.toOp.id? != op.id?

theorem notOvertaking_sound {s : InnerListeners Nat Unit × Stack Nat Unit}
    {es : List (Effect Nat)} (h : notOvertaking s es = true) : NotOvertaking s es := by
  intro n op id hiss hid na hna
  have hop := all_eq_true.mp h op (mem_issuedOps.mpr ⟨n, hiss⟩)
  have hna' := all_eq_true.mp hop na hna
  simpa [hid] using hna'

end Sample

open Sample

/-- **Calls take effect in order where none overtakes an earlier one for its id.** In every run of
a single thread in which a call that registers or removes an id is made while no earlier call for
that id is waiting, the handlers that are registered whenever the thread is outside of the registry
are those of all calls done in the order they were made. In particular none is registered under an
id that was removed and not used again. -/
theorem handlers_eq_registered {world : W} {es : List (Effect C)} {l : InnerListeners C W}
    (h : Execution (guarded NotOvertaking (alone (Move body))) (.default world, []) es (l, [])) :
    l.handlers = registered es ∧
      ∀ es₁ n id es₂, es = es₁ ++ .issued n (.unlisten id) :: es₂ →
        (∀ m event handler, .issued m (.listen id event handler) ∉ es₂) →
        ∀ event, l.find event id = none := by
  have hstart : Refines ((.default world : InnerListeners C W), ([] : Stack C W))
      ⟨.default world, .idle, [], []⟩ := .idle (.default world) []
  obtain ⟨t, hturn, hR⟩ := exists_turn visible_notOvertaking hstart h
  have hout := Turn.outcome_eq_registered hturn
  rw [hR.of_nil.1] at hout
  have heq : l.handlers = registered es := hout
  refine ⟨heq, fun es₁ n id es₂ hes hno event => ?_⟩
  rw [Store.find, heq, hes]
  exact unregistered_registered hno event

/-- In the sample, a handler that is registered from inside a handler stays registered when
another one is removed. -/
theorem sample_handlers_eq_registered : ∃ es l,
    Execution (guarded NotOvertaking (alone (Move (Sample.listensAfterEmit 1)))) (.default (), [])
      es (l, []) ∧
    l.find "z" 2 = some ⟨.any, .listen 2⟩ ∧ l.handlers = registered es := by
  have hguard : ∀ {s es s'}, guarded (fun s es => notOvertaking s es)
      (alone (Move (listensAfterEmit 1))) s es s' →
      guarded NotOvertaking (alone (Move (listensAfterEmit 1))) s es s' :=
    fun hstep => ⟨hstep.1, notOvertaking_sound hstep.2⟩
  have hrun := (execution_run (listensAfterEmit 1) notOvertaking
    nestedRequests).mono hguard
  have hret : (run (listensAfterEmit 1) notOvertaking
    nestedRequests).2.1 = [] := rfl
  have hfind : (run (listensAfterEmit 1) notOvertaking
    nestedRequests).1.find "z" 2 = some ⟨.any, .listen 2⟩ := rfl
  rw [hret] at hrun
  exact ⟨_, _, hrun, hfind, (handlers_eq_registered hrun).1⟩

/-- In the sample, a handler is registered after it was removed. -/
theorem sample_removed_handler_stays : ∃ es l,
    Execution (alone (Move (Sample.listensAfterEmit 2))) (.default (), []) es (l, []) ∧
    issuedOps es = [.listen 0 "x" ⟨.any, .listen 0⟩, .listen 1 "y" ⟨.any, .listen 1⟩,
      .emit (Sample.args "x") none, .emit (Sample.args "y") none, .listen 2 "z" ⟨.any, .listen 2⟩,
      .unlisten 2] ∧
    l.find "z" 2 = some ⟨.any, .listen 2⟩ ∧ Unregistered 2 (registered es) := by
  have hrun := (execution_run (listensAfterEmit 2) (fun _ _ => true)
    nestedRequests).mono And.left
  have hret : (run (listensAfterEmit 2) (fun _ _ => true)
    nestedRequests).2.1 = [] := rfl
  have hfind : (run (listensAfterEmit 2) (fun _ _ => true)
    nestedRequests).1.find "z" 2 = some ⟨.any, .listen 2⟩ := rfl
  have hiss : issuedOps (run (listensAfterEmit 2) (fun _ _ => true)
    nestedRequests).2.2 = [.listen 0 "x" ⟨.any, .listen 0⟩,
      .listen 1 "y" ⟨.any, .listen 1⟩, .emit (args "x") none,
      .emit (args "y") none, .listen 2 "z" ⟨.any, .listen 2⟩, .unlisten 2] := rfl
  rw [hret] at hrun
  refine ⟨_, _, hrun, hiss, hfind, ?_⟩
  rw [registered, hiss]
  exact unregistered_unlisten 2 _

/-! ### Delivery -/

/-- The handlers called for the call number `n`. -/
def calledBy (n : Nat) (es : List (Effect C)) : List (EventId × Handler C) :=
  es.filterMap fun
    | .called m id handler => if m = n then some (id, handler) else none
    | _ => none

@[simp] theorem calledBy_append (n : Nat) (es es' : List (Effect C)) :
    calledBy n (es ++ es') = calledBy n es ++ calledBy n es' := filterMap_append

/-- The numbers of the calls that a turn has still to do. -/
def Turn.numbers (t : Turn C W) : List Nat := (t.queue ++ t.waiting).map Prod.fst

/-- What was queued has been done, or is still to be done. -/
def Turn.Settles (es : List (Effect C)) (t : Turn C W) : Prop :=
  ∀ m, .deferred m ∈ es → .applied m ∈ es ∨ m ∈ t.numbers

theorem Turn.Step.numbers (h : t.Step body es t') {m : Nat} (hm : m ∈ t.numbers) :
    m ∈ t'.numbers ∨ .applied m ∈ es := by
  -- The calls that are waiting are done one by one, the first of them first.
  have hfirst : ∀ {n : Nat} {op : Op C} {waiting : List (Nat × Op C)},
      m ∈ ((n, op) :: waiting).map Prod.fst →
      m ∈ waiting.map Prod.fst ∨ .applied m ∈ [(.applied n : Effect C)] := by
    intro n op waiting hm
    rcases mem_cons.mp hm with rfl | hm
    · exact .inr (mem_singleton.mpr rfl)
    · exact .inl hm
  cases h with
  | request s r | world s w => cases hm
  | insert | remove | deliver => exact hfirst hm
  | call =>
    refine .inl ?_
    simp only [Turn.numbers, map_append, mem_append] at hm ⊢
    exact hm.imp_left .inl
  | callListen | callOnce | callTwice | done | panic | update | queued | finish => exact .inl hm

theorem Turn.Step.settles (h : t.Step body es' t') (hold : t.Settles es) :
    t'.Settles (es ++ es') := by
  intro m hm
  rcases mem_append.mp hm with hes | hes'
  · rcases hold m hes with happlied | hwaits
    · exact .inl (mem_append_left _ happlied)
    · exact (h.numbers hwaits).symm.imp_left (mem_append_right es)
  · cases h with
    | queued t m' hq =>
      cases mem_singleton.mp hes'
      refine .inr ?_
      rw [Turn.numbers, map_append]
      exact mem_append_left _ hq
    | _ => simp at hes'

/-- The log up to the end of the delivery of the call number `n` to the handlers `handlers`: they
were called, and nothing else was done. -/
structure Delivered (n : Nat) (handlers : List (EventId × Handler C)) (es : List (Effect C)) :
    Prop where
  called : (calledBy n es).Perm handlers
  applied : ∀ m, .applied m ∈ es → m = n

/-- The emit number `n`, for the handlers `handlers`, along the run that starts with it. -/
inductive Phase (n : Nat) (args : EmitArgs) (filter : Option Filter)
    (handlers : List (EventId × Handler C)) : List (Effect C) → Turn C W → Prop
  | before (s : Store C W) (hcalls : n < s.calls) (h : s.matching args filter = handlers) :
      Phase n args filter handlers [] ⟨s, .idle, [], [(n, .emit args filter)]⟩
  | during {es : List (Effect C)} (s : Store C W) (rest : List (EventId × Handler C))
      (scripts : List (Script C W)) (queue : List (Nat × Op C)) (hcalls : n < s.calls)
      (hnumbers : ∀ m ∈ queue.map Prod.fst, m ≠ n)
      (hcalled : (calledBy n es ++ rest).Perm handlers)
      (happlied : ∀ m, .applied m ∈ es → m = n) :
      Phase n args filter handlers es ⟨s, .delivering n args rest scripts, queue, []⟩
  | after {es es' : List (Effect C)} (t : Turn C W) (hcalls : n < t.store.calls)
      (hnumbers : ∀ m ∈ t.numbers, m ≠ n)
      (htask : ∀ m args rest scripts, t.task = .delivering m args rest scripts → m ≠ n)
      (hdelivered : Delivered n handlers es) (hes' : calledBy n es' = []) :
      Phase n args filter handlers (es ++ es') t
  | panicked {es : List (Effect C)} (t : Turn C W) (p : Panic) (h : t.task = .panicked p) :
      Phase n args filter handlers es t

variable {n : Nat} {args : EmitArgs} {filter : Option Filter}
  {handlers : List (EventId × Handler C)}

/-- Once the emit has delivered its event, nothing is delivered for it again: all calls that are
still to be done have other numbers. -/
private theorem phase_after {es₁ es₂ : List (Effect C)} (h : t.Step body es' t')
    (hcalls : n < t.store.calls) (hnumbers : ∀ m ∈ t.numbers, m ≠ n)
    (htask : ∀ m args rest scripts, t.task = .delivering m args rest scripts → m ≠ n)
    (hdelivered : Delivered n handlers es₁) (hes₂ : calledBy n es₂ = []) :
    Phase n args filter handlers (es₁ ++ es₂ ++ es') t' := by
  have hkeep : calledBy n es' = [] → n < t'.store.calls → (∀ m ∈ t'.numbers, m ≠ n) →
      (∀ m args rest scripts, t'.task = .delivering m args rest scripts → m ≠ n) →
      Phase n args filter handlers (es₁ ++ es₂ ++ es') t' := by
    intro hes' hcalls' hnumbers' htask'
    rw [append_assoc]
    exact .after t' hcalls' hnumbers' htask' hdelivered (by rw [calledBy_append, hes₂, hes']; rfl)
  have hother : ∀ (m : Nat) (id : EventId) (handler : Handler C), m ≠ n →
      calledBy n [.called m id handler] = [] := by
    intro m id handler hne
    simp [calledBy, hne]
  cases h with
  | request s r =>
    refine hkeep rfl ?_ ?_ (by simp)
    · rw [Store.issue_calls]
      exact hcalls.trans (Nat.lt_succ_self _)
    · simpa [Turn.numbers] using hcalls.ne'
  | world s w | finish => exact hkeep rfl hcalls hnumbers (by simp)
  | insert | remove =>
    exact hkeep rfl hcalls (forall_mem_cons.mp hnumbers).2 (by simp)
  | deliver =>
    obtain ⟨hm, hwait⟩ := forall_mem_cons.mp hnumbers
    refine hkeep rfl hcalls hwait fun m' args' rest' scripts' heq => ?_
    cases heq
    exact hm
  | callListen _ m | callOnce _ m =>
    have hm := htask m _ _ _ rfl
    refine hkeep (hother _ _ _ hm) hcalls hnumbers fun m' args' rest' scripts' heq => ?_
    cases heq
    exact hm
  | callTwice | panic => exact .panicked _ _ rfl
  | done _ m | update _ m =>
    refine hkeep rfl hcalls hnumbers fun m' args' rest' scripts' heq => ?_
    cases heq
    exact htask m _ _ _ rfl
  | call s m _ _ _ _ _ queue waiting =>
    refine hkeep rfl ?_ (fun m' hm' => ?_) fun m' args' rest' scripts' heq => ?_
    · rw [Store.issue_calls]
      exact hcalls.trans (Nat.lt_succ_self _)
    · have hm'' : m' ∈ (queue ++ waiting).map Prod.fst ∨ m' = s.calls := by
        simp only [Turn.numbers, map_append, map_cons, map_nil, mem_append,
          mem_singleton] at hm' ⊢
        tauto
      rcases hm'' with hold | rfl
      · exact hnumbers m' hold
      · exact hcalls.ne'
    · cases heq
      exact htask m _ _ _ rfl
  | queued => exact hkeep rfl hcalls hnumbers htask

/-- While the emit delivers its event, the handlers it calls are taken off the list, and what the
handlers ask for is only queued. -/
private theorem phase_during {s : Store C W} {rest : List (EventId × Handler C)}
    {scripts : List (Script C W)} {queue : List (Nat × Op C)}
    (h : Turn.Step body ⟨s, .delivering n args rest scripts, queue, []⟩ es' t')
    (hcalls : n < s.calls) (hnumbers : ∀ m ∈ queue.map Prod.fst, m ≠ n)
    (hcalled : (calledBy n es ++ rest).Perm handlers) (happlied : ∀ m, .applied m ∈ es → m = n) :
    Phase n args filter handlers (es ++ es') t' := by
  have happlied' : (∀ m, .applied m ∉ es') → ∀ m, .applied m ∈ es ++ es' → m = n := by
    intro hno m hm
    exact happlied m ((mem_append.mp hm).resolve_right (hno m))
  cases h with
  | callListen | callOnce | queued =>
    refine .during _ _ _ _ hcalls hnumbers ?_ (happlied' (by simp))
    simpa [calledBy] using hcalled
  | callTwice | panic => exact .panicked _ _ rfl
  | done | update =>
    rw [append_nil]
    exact .during _ _ _ _ hcalls hnumbers hcalled happlied
  | call =>
    refine .during _ _ _ _ ?_ ?_ ?_ (happlied' (by simp))
    · rw [Store.issue_calls]
      omega
    · grind
    · simpa [calledBy] using hcalled
  | finish =>
    refine .after _ hcalls ?_ (by simp) ⟨?_, happlied⟩ rfl
    · simpa [Turn.numbers] using hnumbers
    · simpa using hcalled

theorem Phase.step (hphase : Phase n args filter handlers es t) (h : t.Step body es' t') :
    Phase n args filter handlers (es ++ es') t' := by
  cases hphase with
  | before s hcalls hmatching =>
    cases h with
    | deliver _ _ _ _ rest _ hperm =>
      rw [hmatching] at hperm
      exact .during _ _ _ _ hcalls (by simp) (by simpa [calledBy] using hperm) (by simp)
    | queued _ m hm => simp at hm
  | during _ _ _ _ hcalls hnumbers hcalled happlied =>
    exact phase_during h hcalls hnumbers hcalled happlied
  | after t hcalls hnumbers htask hdelivered hes' =>
    exact phase_after h hcalls hnumbers htask hdelivered hes'
  | panicked t p hp =>
    cases h with
    | queued => exact .panicked _ p hp
    | _ => cases hp

theorem visible_true :
    Visible (fun (_ : InnerListeners C W × Stack C W) (_ : List (Effect C)) => True)
    fun _ _ => True where
  aligned := fun _ _ => trivial
  quiet := fun _ => trivial

/-- **Exact delivery and quiescence.** An emit made outside of the registry, with nothing in the
queue, whose calls all return: it calls every handler registered for the event that is for all
targets or passes the filter, once and before any action it caused is done, and it calls no other;
and when it has returned the queue is empty and every action that was queued has been done. -/
theorem emitFilter_delivers {l l' : InnerListeners C W} (hfree : l.locked = false)
    (hempty : l.pending = []) (args : EmitArgs) (filter : Option Filter) {es : List (Effect C)}
    (h : Execution (alone (Continues body))
      (⟨(l.toStore.issue (.emitFilter args filter)).1, l.pending, l.locked⟩,
        [.attempt l.calls (.emit args filter)]) es (l', [])) :
    (∃ es₁ es₂, es = es₁ ++ es₂ ∧ ((calledBy l.calls es₁).map Prod.fst).Nodup ∧
      (∀ id handler, (id, handler) ∈ calledBy l.calls es₁ ↔
        l.find args.eventName id = some handler ∧ matchAnyOrFilter handler.target filter) ∧
      (∀ m, .applied m ∈ es₁ → m = l.calls) ∧ calledBy l.calls es₂ = []) ∧
    l'.pending = [] ∧ ∀ m, .deferred m ∈ es → .applied m ∈ es := by
  rw [hfree, hempty] at h
  have hmoves : ∀ {s : InnerListeners C W × Stack C W} {es s'}, alone (Continues body) s es s' →
      guarded (fun _ _ => True) (alone (Move body)) s es s' := by
    rintro s es s' ⟨o, hstep⟩
    exact ⟨.step o hstep, trivial⟩
  have hstart : Refines ((⟨(l.toStore.issue (.emitFilter args filter)).1, [], false⟩ :
      InnerListeners C W), [.attempt l.calls (.emit args filter)])
      ⟨(l.toStore.issue (.emitFilter args filter)).1, .idle, [], [(l.calls, .emit args filter)]⟩ :=
    .attempting _ _ _ []
  obtain ⟨t, hturn, hR⟩ := exists_turn visible_true hstart (h.mono hmoves)
  obtain ⟨rfl, hpend, -⟩ := hR.of_nil
  have hbef : Phase l.calls args filter (l.toStore.matching args filter) []
      (⟨(l.toStore.issue (.emitFilter args filter)).1, .idle, [],
        [(l.calls, .emit args filter)]⟩ : Turn C W) := .before _ (Nat.lt_succ_self _) rfl
  have hphase := hturn.invariant (I := Phase l.calls args filter (l.toStore.matching args filter))
    hbef fun _ hphase hstep => hphase.step hstep.1
  have hsettles := hturn.invariant (I := Turn.Settles) (by simp [Turn.Settles])
    fun _ hold hstep => hstep.1.settles hold
  refine ⟨?_, hpend, fun m hm => (hsettles m hm).resolve_right (by simp [Turn.numbers])⟩
  generalize hidle : (⟨l'.toStore, .idle, [], []⟩ : Turn C W) = t at hphase
  cases hphase with
  | before | during => cases hidle
  | panicked _ p hp =>
    rw [← hidle] at hp
    cases hp
  | @after es₁ es₂ _ _ _ _ hdelivered hes₂ =>
    refine ⟨es₁, es₂, rfl, ?_, fun id handler => ?_, hdelivered.applied, hes₂⟩
    · exact (hdelivered.called.map Prod.fst).nodup_iff.mpr (l.toStore.nodup_matching args filter)
    · rw [hdelivered.called.mem_iff, Store.mem_matching]

/-- In the sample, an emit of `x` delivers both events, and leaves nothing to be done. -/
theorem sample_emit_delivers : ∃ es l',
    Execution (alone (Continues (Sample.listensAfterEmit 1)))
      (⟨(Sample.listening.toStore.issue (.emitFilter (Sample.args "x") none)).1,
        Sample.listening.pending, Sample.listening.locked⟩,
        [.attempt Sample.listening.calls (.emit (Sample.args "x") none)]) es (l', []) ∧
    .deferred 3 ∈ es ∧ .applied 3 ∈ es ∧ l'.pending = [] := by
  have hrun := execution_emit (listensAfterEmit 1) listening (args "x")
  have hret : (emit (listensAfterEmit 1) listening
    (args "x")).2.1 = [] := rfl
  have hlog : (emit (listensAfterEmit 1) listening (args "x")).2.2 =
      [.applied 2, .called 2 0 ⟨.any, .listen 0⟩, .issued 3 (.emit (args "y") none),
        .deferred 3, .issued 4 (.listen 2 "z" ⟨.any, .listen 2⟩), .deferred 4, .applied 3,
        .called 3 1 ⟨.any, .listen 1⟩, .issued 5 (.unlisten 1), .deferred 5, .applied 5,
        .applied 4] := rfl
  rw [hret] at hrun
  obtain ⟨-, hpend, hdone⟩ := emitFilter_delivers rfl rfl (args "x") none hrun
  have hdfr : .deferred 3 ∈ (emit (listensAfterEmit 1) listening
      (args "x")).2.2 := by simp [hlog]
  exact ⟨_, _, hrun, hdfr, hdone 3 hdfr, hpend⟩

end Tauri.Events
