import Tauri.Event.Listeners

/-!
# Which handlers an emit calls

For any number of threads and any interleaving of their steps, a handler that is called can be
traced back through the log: it was registered for the event of an emit that was made
(`Due`), and it passes the filter of that emit, **unless the emit went through the queue**. A queued
emit has lost its filter (`Op.toPending`), and it is replayed to every handler of its event.

So filters are respected in the runs in which the filter of an emit that is queued accepts every
handler of the event anyway.
-/

namespace Tauri.Events

open Rust List

variable {C W : Type}

/-- The handler was registered for the event under the id. -/
def Listened (es : List (Effect C)) (event : String) (id : EventId) (handler : Handler C) : Prop :=
  ∃ m, .issued m (.listen id event handler) ∈ es

/-- The call number `n` is the operation `op`; or `op` is an emit that was queued, and the call
had some filter. -/
def Stands (es : List (Effect C)) (n : Nat) : Op C → Prop
  | .listen id event handler => .issued n (.listen id event handler) ∈ es
  | .unlisten _ => True
  | .emit args filter => .issued n (.emit args filter) ∈ es ∨
      .deferred n ∈ es ∧ ∃ f, .issued n (.emit args f) ∈ es

/-- The handler may be called for the emit number `n`. -/
def Due (es : List (Effect C)) (n : Nat) (args : EmitArgs) (id : EventId) (handler : Handler C) :
    Prop :=
  Listened es args.eventName id handler ∧ ∃ f, .issued n (.emit args f) ∈ es ∧
    (matchAnyOrFilter handler.target f ∨ .deferred n ∈ es)

/-- What a thread is about to do stems from the calls in the log. -/
def Frame.Stems (es : List (Effect C)) : Frame C W → Prop
  | .attempt n op => Stands es n op
  | .insertPending n (.emit args) => ∃ f, .issued n (.emit args f) ∈ es
  | .insertPending n action => Stands es n action.toOp
  | .insert n id event handler => Stands es n (.listen id event handler)
  | .deliver n args rest _ => ∀ ih ∈ rest, Due es n args ih.1 ih.2
  | .replay actions => ∀ na ∈ actions, Stands es na.1 na.2.toOp
  | _ => True

/-- What the shared state holds stems from the calls in the log. -/
structure Stems (es : List (Effect C)) (l : InnerListeners C W) : Prop where
  lt_calls : ∀ {n op}, .issued n op ∈ es → n < l.calls
  unique : ∀ {n op op'}, .issued n op ∈ es → .issued n op' ∈ es → op = op'
  find : ∀ {event id handler}, l.find event id = some handler → Listened es event id handler
  pending : ∀ na ∈ l.pending, Stands es na.1 na.2.toOp
  called : ∀ {n id handler}, .called n id handler ∈ es → ∃ args, Due es n args id handler

variable {id : EventId} {handler : Handler C}

section Log

variable {es : List (Effect C)} (es' : List (Effect C)) {n : Nat}

theorem Listened.append {event : String} (h : Listened es event id handler) :
    Listened (es ++ es') event id handler := by
  obtain ⟨m, hm⟩ := h
  exact ⟨m, mem_append_left es' hm⟩

variable {op : Op C}

theorem Stands.append (h : Stands es n op) : Stands (es ++ es') n op := by
  match op with
  | .listen _ _ _ => exact mem_append_left es' h
  | .unlisten _ => trivial
  | .emit args filter =>
    rcases h with h | ⟨hn, f, hf⟩
    · exact .inl (mem_append_left es' h)
    · exact .inr ⟨mem_append_left es' hn, f, mem_append_left es' hf⟩

theorem Due.append {args : EmitArgs} (h : Due es n args id handler) :
    Due (es ++ es') n args id handler := by
  obtain ⟨hlis, f, hf, hpass⟩ := h
  exact ⟨hlis.append es', f, mem_append_left es' hf,
    hpass.imp_right (mem_append_left es')⟩

theorem Frame.Stems.append {fr : Frame C W} (h : fr.Stems es) : fr.Stems (es ++ es') := by
  match fr with
  | .attempt n op => exact Stands.append es' h
  | .insertPending n (.emit args) =>
    obtain ⟨f, hf⟩ := h
    exact ⟨f, mem_append_left es' hf⟩
  | .insertPending n (.listen id event handler) => exact mem_append_left es' h
  | .insertPending n (.unlisten id) => trivial
  | .insert n id event handler => exact mem_append_left es' h
  | .deliver n args rest _ => exact fun ih hih => (h ih hih).append es'
  | .replay actions => exact fun na hna => (h na hna).append es'
  | .script _ | .remove _ _ | .unlock | .flushPending | .panicked _ => trivial

theorem Stands.toPending (h : Stands es n op) :
    (Frame.insertPending n op.toPending : Frame C W).Stems es := by
  match op with
  | .listen _ _ _ => exact h
  | .unlisten _ => trivial
  | .emit args filter =>
    rcases h with h | ⟨-, f, hf⟩
    · exact ⟨filter, h⟩
    · exact ⟨f, hf⟩

theorem Frame.Stems.deferred {action : Pending C}
    (h : (Frame.insertPending n action : Frame C W).Stems es) :
    Stands (es ++ [.deferred n]) n action.toOp := by
  match action with
  | .listen _ _ _ => exact mem_append_left _ h
  | .unlisten _ => trivial
  | .emit args =>
    obtain ⟨f, hf⟩ := h
    exact .inr ⟨by simp, f, mem_append_left _ hf⟩

theorem stands_issued : Stands (es ++ [.issued n op]) n op := by
  match op with
  | .listen _ _ _ => simp [Stands]
  | .unlisten _ => trivial
  | .emit _ _ => simp [Stands]

end Log

/-! ### One move -/

variable {es es' : List (Effect C)} {l l' : InnerListeners C W} {n : Nat}

section

variable (h : Stems es l)
include h

theorem Stems.step (hcalls : l.calls ≤ l'.calls)
    (hiss : ∀ n op, .issued n op ∈ es' → l.calls ≤ n ∧ n < l'.calls ∧ es' = [.issued n op])
    (hfind : ∀ event id handler, l'.find event id = some handler →
      l.find event id = some handler ∨ Listened es event id handler)
    (hpend : ∀ na ∈ l'.pending, na ∈ l.pending ∨ Stands (es ++ es') na.1 na.2.toOp)
    (hcalled : ∀ n id handler, .called n id handler ∈ es' → ∃ args, Due es n args id handler) :
    Stems (es ++ es') l' where
  lt_calls := by
    intro n op hmem
    rcases mem_append.mp hmem with hmem | hmem
    · exact (h.lt_calls hmem).trans_le hcalls
    · exact (hiss n op hmem).2.1
  unique := by
    intro n op op' hmem hmem'
    rcases mem_append.mp hmem with hmem | hmem <;>
      rcases mem_append.mp hmem' with hmem' | hmem'
    · exact h.unique hmem hmem'
    · have hlt := h.lt_calls hmem
      have hle := (hiss n op' hmem').1
      omega
    · have hlt := h.lt_calls hmem'
      have hle := (hiss n op hmem).1
      omega
    · grind
  find := by
    intro event id handler hmem
    rcases hfind event id handler hmem with hold | hlis
    · exact (h.find hold).append es'
    · exact hlis.append es'
  pending := by
    intro na hna
    rcases hpend na hna with hold | hstands
    · exact (h.pending na hold).append es'
    · exact hstands
  called := by
    intro n id handler hmem
    rcases mem_append.mp hmem with hmem | hmem
    · obtain ⟨args, hdue⟩ := h.called hmem
      exact ⟨args, hdue.append es'⟩
    · obtain ⟨args, hdue⟩ := hcalled n id handler hmem
      exact ⟨args, hdue.append es'⟩

/-- A move that logs no call of the registry or of a handler, and leaves the handler map alone. -/
private theorem Stems.quiet (hes : ∀ e ∈ es', ∃ n, e = .applied n ∨ e = .deferred n)
    (hcalls : l'.calls = l.calls) (hhs : l'.handlers = l.handlers)
    (hpend : ∀ na ∈ l'.pending, na ∈ l.pending ∨ Stands (es ++ es') na.1 na.2.toOp) :
    Stems (es ++ es') l' := by
  refine h.step hcalls.ge (fun n op hmem => ?_) (fun event id handler hfind => .inl ?_) hpend
    fun n id handler hmem => ?_
  · obtain ⟨m, hm | hm⟩ := hes _ hmem <;> cases hm
  · rwa [Store.find, hhs] at hfind
  · obtain ⟨m, hm | hm⟩ := hes _ hmem <;> cases hm

private theorem Stems.issued (r : Request C) :
    Stems (es ++ [.issued l.calls (l.toStore.issue r).2.1])
      (⟨(l.toStore.issue r).1, l.pending, l.locked⟩ : InnerListeners C W) := by
  refine h.step ?_ (fun n op hmem => ?_) (fun event id handler hfind => .inl ?_)
    (fun na hna => .inl hna) fun n id handler hmem => ?_
  · rw [Store.issue_calls]
    exact Nat.le_succ _
  · simp_all
  · rwa [Store.issue_find] at hfind
  · cases mem_singleton.mp hmem

private theorem Stems.calls {args : EmitArgs}
    (hdue : Due es n args id handler) (hcalls : l'.calls = l.calls)
    (hhs : l'.handlers = l.handlers) (hpend : l'.pending = l.pending) :
    Stems (es ++ [.called n id handler]) l' := by
  refine h.step hcalls.ge (fun n op hmem => ?_) (fun event id handler hfind => .inl ?_)
    (fun na hna => .inl (hpend ▸ hna)) fun n' id' handler' hmem => ?_
  · cases mem_singleton.mp hmem
  · rwa [Store.find, hhs] at hfind
  · cases mem_singleton.mp hmem
    exact ⟨args, hdue⟩

private theorem Stems.inserted {event : String} (hop : Stands es n (.listen id event handler)) :
    Stems (es ++ [.applied n])
      (⟨l.toStore.insertHandler id event handler, l.pending, l.locked⟩ : InnerListeners C W) := by
  refine h.step le_rfl (by simp) (fun event' id' handler' hfind => ?_) (fun na hna => .inl hna)
    (by simp)
  rw [Store.find_insertHandler] at hfind
  split_ifs at hfind with heq
  · obtain ⟨rfl, rfl⟩ := heq
    cases hfind
    exact .inr ⟨n, hop⟩
  · exact .inl hfind

private theorem Stems.removed (n : Nat) (id : EventId) : Stems (es ++ [.applied n])
      (⟨l.toStore.removeHandler id, l.pending, l.locked⟩ : InnerListeners C W) := by
  refine h.step le_rfl (by simp) (fun event' id' handler' hfind => ?_) (fun na hna => .inl hna)
    (by simp)
  rw [Store.find_removeHandler] at hfind
  split_ifs at hfind
  exact .inl hfind

private theorem Stems.pushed {action : Pending C}
    (hact : (Frame.insertPending n action : Frame C W).Stems es) :
    Stems (es ++ [.deferred n]) { l with pending := l.pending ++ [(n, action)] } := by
  refine h.quiet (by simp) rfl rfl fun na hna => ?_
  rcases mem_append.mp hna with hna | hna
  · exact .inl hna
  · rw [mem_singleton.mp hna]
    exact .inr hact.deferred

/-- The handlers that an `emit` is going to call are registered, and pass the filter it has now. -/
private theorem Stems.due {args : EmitArgs} {filter : Option Filter}
    (hop : Stands es n (.emit args filter)) {ih : EventId × Handler C}
    (hih : ih ∈ l.toStore.matching args filter) : Due es n args ih.1 ih.2 := by
  obtain ⟨hfind, hpass⟩ := Store.mem_matching.mp hih
  refine ⟨h.find hfind, ?_⟩
  rcases hop with hiss | ⟨hdfr, f, hf⟩
  · exact ⟨filter, hiss, .inl hpass⟩
  · exact ⟨f, hf, .inr hdfr⟩

end

variable {body : C → Event → Script C W}

/-- A move keeps the log complete: what the shared state holds and what the thread is about to do
stem from it. -/
theorem Transition.stems {k k' : Stack C W} (h : Transition body l k es' l' k') (hl : Stems es l)
    (hk : ∀ fr ∈ k, fr.Stems es) : Stems (es ++ es') l' ∧ ∀ fr ∈ k', fr.Stems (es ++ es') := by
  have hkeep : ∀ {k : Stack C W}, (∀ fr ∈ k, fr.Stems es) → ∀ fr ∈ k, fr.Stems (es ++ es') :=
    fun hk fr hfr => (hk fr hfr).append es'
  have hsil : es' = [] → l'.calls = l.calls → l'.handlers = l.handlers →
      (∀ na ∈ l'.pending, na ∈ l.pending) → Stems (es ++ es') l' := by
    rintro rfl hcalls hhs hpend
    exact hl.quiet (by simp) hcalls hhs fun na hna => .inl (hpend na hna)
  have hsame : ∀ na ∈ l.pending, na ∈ l.pending := fun _ hna => hna
  cases h with
  | done | unlock | replayNil => exact ⟨hsil rfl rfl rfl hsame, hkeep (forall_mem_cons.mp hk).2⟩
  | panic | callTwice => exact ⟨hsil rfl rfl rfl hsame, forall_mem_singleton.mpr trivial⟩
  | update =>
    have hrest := hkeep (forall_mem_cons.mp hk).2
    exact ⟨hsil rfl rfl rfl hsame, forall_mem_cons.mpr ⟨trivial, hrest⟩⟩
  | call r s k =>
    have hrest := hkeep (forall_mem_cons.mp hk).2
    exact ⟨hl.issued r, forall_mem_cons.mpr
      ⟨stands_issued, forall_mem_cons.mpr ⟨trivial, hrest⟩⟩⟩
  | request r => exact ⟨hl.issued r, forall_mem_singleton.mpr stands_issued⟩
  | defer =>
    obtain ⟨hop, hrest⟩ := forall_mem_cons.mp hk
    exact ⟨hsil rfl rfl rfl hsame,
      forall_mem_cons.mpr ⟨(Stands.toPending hop).append [], hkeep hrest⟩⟩
  | lockInsert n id event handler k =>
    obtain ⟨hop, hrest⟩ := forall_mem_cons.mp hk
    have hstands : Stands es n (.listen id event handler) := hop
    exact ⟨hsil rfl rfl rfl hsame, forall_mem_cons.mpr
      ⟨hstands.append [], forall_mem_cons.mpr ⟨trivial, hkeep hrest⟩⟩⟩
  | lockRemove =>
    have hrest := hkeep (forall_mem_cons.mp hk).2
    exact ⟨hsil rfl rfl rfl hsame,
      forall_mem_cons.mpr ⟨trivial, forall_mem_cons.mpr ⟨trivial, hrest⟩⟩⟩
  | lockEmit _ _ _ _ _ _ hperm =>
    obtain ⟨hop, hrest⟩ := forall_mem_cons.mp hk
    refine ⟨hl.quiet (by simp) rfl rfl fun na hna => .inl hna,
      forall_mem_cons.mpr ⟨fun ih hih => ?_, hkeep hrest⟩⟩
    exact (hl.due hop (hperm.mem_iff.mp hih)).append _
  | push =>
    obtain ⟨hact, hrest⟩ := forall_mem_cons.mp hk
    exact ⟨hl.pushed hact, hkeep hrest⟩
  | insert =>
    obtain ⟨hop, hrest⟩ := forall_mem_cons.mp hk
    exact ⟨hl.inserted hop, hkeep hrest⟩
  | remove n id k => exact ⟨hl.removed n id, hkeep (forall_mem_cons.mp hk).2⟩
  | finish _ _ mp =>
    have hrest := hkeep (forall_mem_cons.mp hk).2
    refine ⟨hsil rfl rfl rfl hsame, forall_mem_cons.mpr ⟨trivial, ?_⟩⟩
    cases mp with
    | false => exact hrest
    | true => exact forall_mem_cons.mpr ⟨trivial, hrest⟩
  | callListen =>
    obtain ⟨hdeliver, hrest⟩ := forall_mem_cons.mp hk
    obtain ⟨hdue, hoths⟩ := forall_mem_cons.mp hdeliver
    exact ⟨hl.calls hdue rfl rfl rfl, forall_mem_cons.mpr
      ⟨trivial, forall_mem_cons.mpr ⟨fun ih hih => (hoths ih hih).append _, hkeep hrest⟩⟩⟩
  | callOnce =>
    obtain ⟨hdeliver, hrest⟩ := forall_mem_cons.mp hk
    obtain ⟨hdue, hoths⟩ := forall_mem_cons.mp hdeliver
    exact ⟨hl.calls hdue rfl rfl rfl, forall_mem_cons.mpr
      ⟨trivial, forall_mem_cons.mpr ⟨trivial, forall_mem_cons.mpr
        ⟨fun ih hih => (hoths ih hih).append _, hkeep hrest⟩⟩⟩⟩
  | flush k =>
    have hrest := hkeep (forall_mem_cons.mp hk).2
    exact ⟨hsil rfl rfl rfl (by simp), forall_mem_cons.mpr
      ⟨fun na hna => (hl.pending na hna).append [], hrest⟩⟩
  | replayCons =>
    obtain ⟨hreplay, hrest⟩ := forall_mem_cons.mp hk
    obtain ⟨hact, hoths⟩ := forall_mem_cons.mp hreplay
    exact ⟨hsil rfl rfl rfl hsame, forall_mem_cons.mpr
      ⟨Stands.append [] hact, forall_mem_cons.mpr
        ⟨fun na hna => (hoths na hna).append [], hkeep hrest⟩⟩⟩
  | world => exact ⟨hsil rfl rfl rfl hsame, hkeep hk⟩

/-! ### All runs -/

theorem stems_of_execution {ι : Type} [DecidableEq ι] {world : W}
    {s : InnerListeners C W × (ι → Stack C W)}
    (h : Execution (interleave (Move body)) (.default world, fun _ => []) es s) : Stems es s.1 := by
  have hinitial : Stems [] (.default world : InnerListeners C W) := by
    constructor <;> simp [InnerListeners.default]
  exact (h.invariant_interleave (F := fun es k => ∀ fr ∈ k, fr.Stems es)
    (fun es' _ hk fr hfr => (hk fr hfr).append es') hinitial (fun _ fr hfr => nomatch hfr)
    fun hl hk hmove => hmove.transition.stems hl hk).1

namespace Sample

/-- The code of two handlers: the first emits `y` to the given window, the second does nothing. -/
def emitsTo (label : String) : Nat → Event → Script Nat Unit
  | 0, _ => makes [.emitTo (.window label) (args "y")]
  | _, _ => .done

/-- A handler for `x`, one for `y` that is for the window `b`, and an emit of `x`. -/
def windowRequests : List (Request Nat) :=
  [.listen "x" .any 0, .listen "y" (.window "b") 1, .emit (args "x")]

/-- What happens then. -/
def windowLog (label : String) : List (Effect Nat) :=
  [.issued 0 (.listen 0 "x" ⟨.any, .listen 0⟩), .applied 0,
    .issued 1 (.listen 1 "y" ⟨.window "b", .listen 1⟩), .applied 1,
    .issued 2 (.emit (args "x") none), .applied 2, .called 2 0 ⟨.any, .listen 0⟩,
    .issued 3 (.emit (args "y") (emitToFilter (.window label))), .deferred 3, .applied 3,
    .called 3 1 ⟨.window "b", .listen 1⟩]

end Sample

open Sample

/-- **Filters are respected where the queue does not matter.** In every run in which the filter of
each emit that is queued accepts every handler that is ever registered for its event, the handlers
called for an emit are registered for its event and pass its filter. -/
theorem emitFilter_calls_only_matching {ι : Type} [DecidableEq ι] {world : W}
    {es : List (Effect C)} {s : InnerListeners C W × (ι → Stack C W)}
    (h : Execution (interleave (Move body)) (.default world, fun _ => []) es s)
    (hqueued : ∀ n args f, .issued n (.emit args f) ∈ es → .deferred n ∈ es →
      ∀ id handler, Listened es args.eventName id handler → matchAnyOrFilter handler.target f)
    {n : Nat} {args : EmitArgs} {f : Option Filter} (hissued : .issued n (.emit args f) ∈ es)
    {id : EventId} {handler : Handler C} (hcalled : .called n id handler ∈ es) :
    Listened es args.eventName id handler ∧ matchAnyOrFilter handler.target f := by
  have hstems := stems_of_execution h
  obtain ⟨args', hlis, f', hissued', hpass⟩ := hstems.called hcalled
  cases hstems.unique hissued hissued'
  rcases hpass with hpass | hdfr
  · exact ⟨hlis, hpass⟩
  · exact ⟨hlis, hqueued n args f hissued hdfr id handler hlis⟩

/-- In the sample, an emit to the window `b` from inside a handler calls the handler of `b`. -/
theorem sample_queued_emit_reaches_its_window : ∃ s,
    Execution (interleave (Move (Sample.emitsTo "b"))) (.default (), fun _ : Unit => [])
      (Sample.windowLog "b") s ∧
    Listened (Sample.windowLog "b") "y" 1 ⟨.window "b", .listen 1⟩ ∧
    matchAnyOrFilter (.window "b") (emitToFilter (.window "b")) := by
  have hlog : (run (emitsTo "b") (fun _ _ => true) windowRequests).2.2 =
      windowLog "b" := rfl
  have hrun := ((execution_run (emitsTo "b") (fun _ _ => true)
    windowRequests).mono And.left).interleave_of_alone
  rw [hlog] at hrun
  have hiss : .issued 3 (.emit (args "y") (emitToFilter (.window "b"))) ∈
      windowLog "b" := by simp [windowLog]
  have hcalled : .called 3 1 ⟨.window "b", .listen 1⟩ ∈ windowLog "b" := by
    simp [windowLog]
  refine ⟨_, hrun, emitFilter_calls_only_matching hrun ?_ hiss hcalled⟩
  -- the only emit that is queued is the inner one, and the only handler for its event passes
  intro n args f hemit hdfr id handler ⟨m, hlis⟩
  simp [windowLog] at hemit hdfr hlis
  subst hdfr
  obtain ⟨-, rfl, rfl⟩ := hemit.resolve_left (by simp)
  obtain ⟨-, -, -, rfl⟩ := hlis.resolve_left (by simp [args])
  rfl

/-- In the sample, an emit to the window `a` from inside a handler calls a handler that is for the
window `b`. -/
theorem sample_queued_emit_reaches_other_window : ∃ s,
    Execution (interleave (Move (Sample.emitsTo "a"))) (.default (), fun _ : Unit => [])
      (Sample.windowLog "a") s ∧
    .issued 3 (.emit (Sample.args "y") (emitToFilter (.window "a"))) ∈ Sample.windowLog "a" ∧
    .called 3 1 ⟨.window "b", .listen 1⟩ ∈ Sample.windowLog "a" ∧
    matchAnyOrFilter (.window "b") (emitToFilter (.window "a")) = false := by
  have hlog : (run (emitsTo "a") (fun _ _ => true) windowRequests).2.2 =
      windowLog "a" := rfl
  have hrun := ((execution_run (emitsTo "a") (fun _ _ => true)
    windowRequests).mono And.left).interleave_of_alone
  rw [hlog] at hrun
  exact ⟨_, hrun, by simp [windowLog], by simp [windowLog], rfl⟩

end Tauri.Events
