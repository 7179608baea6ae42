import Tauri.Rust.Execution

/-!
# Restarting the application

`AppHandle::restart` may be called by any thread. It asks the event loop to exit, with a code of its
own, and the documentation says that the application is restarted by `RunEvent::ExitRequested` and
`RunEvent::Exit`. The request is a message in the queue of the event loop's proxy, and **the caller
does not wait for it**: as soon as the message is sent the caller spawns the new process and ends
the old one, whatever the event loop has done by then, and whatever a handler of `ExitRequested`
answers.

The threads that call and the event loop are two relations on one state (`CallerStep`, `LoopStep`),
and the main thread is at the same time the thread of the event loop, which stands still while a
handler is inside a call. The log of a run tells what the callback of the application receives and
when the process is replaced. A restart goes through the exit protocol exactly when the process is
replaced after the event loop has taken the request, without an objection, and has got to its end
(`restart_exits_first`), which is never the case for a call from a handler
(`not_requested_of_handler`).
-/

namespace Tauri.App

open Rust List Function
open scoped List

/-! ### The event loop -/

/-- `RESTART_EXIT_CODE`. -/
def restartExitCode : Int32 := Int32.maxValue

/-- The events of the callback of `App::run`; everything but the exit protocol is one event. -/
inductive RunEvent where
  | exitRequested (code : Option Int32)
  | exit
  | other
  deriving DecidableEq, Repr

inductive ControlFlow where
  | wait | exit
  deriving DecidableEq, Repr

variable {ι : Type}

/-- `Message::RequestExit`, with the thread whose call of `restart` sent it, if it was one. -/
@[ext]
structure RequestExit (ι : Type) where
  code : Int32
  sender : Option ι
  deriving DecidableEq, Repr

/-- The request of a restart. -/
def RequestExit.restart (t : ι) : RequestExit ι := ⟨restartExitCode, some t⟩

/-- What the event loop is at: between two events, in the callback for an event (with the sender of
the request and with what the channel of `prevent_exit` holds), or at its end. -/
inductive LoopPhase (ι : Type) where
  | polling
  | inCallback (event : RunEvent) (sender : Option ι) (prevented : Bool)
  | destroyed
  deriving DecidableEq, Repr

namespace LoopPhase

def isCallback : LoopPhase ι → Bool
  | .inCallback .. => true
  | _ => false

/-- The event loop has been destroyed, at least up to the callback for it. -/
def closing : LoopPhase ι → Bool
  | .inCallback .exit .. => true
  | .destroyed => true
  | _ => false

end LoopPhase

/-- Where a thread is in `restart`: outside, or behind the request, which was sent or was not. -/
inductive Caller where
  | idle | accepted | rejected
  deriving DecidableEq, Repr

/-- The number of requests that the thread has sent. -/
def Caller.requests : Caller → Nat
  | .accepted => 1
  | _ => 0

theorem Caller.eq_accepted_of_requests {c : Caller} (h : 0 < c.requests) : c = .accepted := by
  cases c with
  | accepted => rfl
  | idle | rejected => cases h

inductive Process where
  | running | replaced | exited
  deriving DecidableEq, Repr

/-- The application: the queue of the proxy, the event loop and its windows, and the threads.
`prevented` are the restarts whose request a handler has objected to. -/
structure AppState (ι : Type) where
  queue : List (RequestExit ι) := []
  controlFlow : ControlFlow := .wait
  phase : LoopPhase ι := .polling
  windows : Nat := 0
  callers : ι → Caller := fun _ => .idle
  prevented : List ι := []
  process : Process := .running

/-- What is seen of a run: a restart's request is sent, the callback receives an event, a handler
calls `prevent_exit`, `cleanup_before_exit` runs, the process is replaced. -/
inductive LogEntry (ι : Type) where
  | accepted (t : ι)
  | received (event : RunEvent) (sender : Option ι)
  | prevented (sender : Option ι)
  | cleanedUp
  | replaced (t : ι)
  deriving DecidableEq, Repr

namespace AppState

/-- `WryHandle::request_exit`: the proxy takes messages until the event loop is gone. -/
def requestExit (s : AppState ι) (m : RequestExit ι) : Option (AppState ι) :=
  match s.phase with
  | .destroyed => none
  | _ => some { s with queue := s.queue ++ [m] }

/-- The callback is called. -/
def call (s : AppState ι) (event : RunEvent) (sender : Option ι) : AppState ι :=
  { s with phase := .inCallback event sender false }

/-- The callback has returned: `handle_event_loop` reads the answer to `ExitRequested`, and the loop
ends after `Exit`. -/
def afterCallback (s : AppState ι) : RunEvent → Bool → AppState ι
  | .exitRequested _, prevented =>
    { s with phase := .polling, controlFlow := if prevented then s.controlFlow else .exit }
  | .exit, _ => { s with phase := .destroyed }
  | .other, _ => { s with phase := .polling }

section AfterCallback

variable (s : AppState ι) (event : RunEvent) (prevented : Bool)

@[simp]
theorem queue_afterCallback : (s.afterCallback event prevented).queue = s.queue := by
  cases event <;> rfl

@[simp]
theorem callers_afterCallback : (s.afterCallback event prevented).callers = s.callers := by
  cases event <;> rfl

@[simp]
theorem prevented_afterCallback : (s.afterCallback event prevented).prevented = s.prevented := by
  cases event <;> rfl

end AfterCallback

end AppState

/-- `App::run` cleans up behind the callback for `Exit`. -/
def cleanup : RunEvent → List (LogEntry ι)
  | .exit => [.cleanedUp]
  | _ => []

theorem eq_of_mem_cleanup {event : RunEvent} {e : LogEntry ι} (h : e ∈ cleanup event) :
    e = .cleanedUp := by
  cases event with
  | exit => exact mem_singleton.mp h
  | exitRequested | other => cases h

/-- The steps of a thread `t` that calls `AppHandle::restart` or `AppHandle::exit`, or creates a
window. -/
inductive CallerStep [DecidableEq ι] (t : ι) :
    AppState ι → List (LogEntry ι) → AppState ι → Prop
  | restartAccepted {s s' : AppState ι} (hidle : s.callers t = .idle)
      (hsend : s.requestExit (.restart t) = some s') :
      CallerStep t s [.accepted t] { s' with callers := Function.update s'.callers t .accepted }
  | restartRejected {s : AppState ι} (hidle : s.callers t = .idle)
      (hsend : s.requestExit (.restart t) = none) :
      CallerStep t s [.cleanedUp] { s with callers := Function.update s.callers t .rejected }
  -- `process::restart`, right behind the request
  | replace {s : AppState ι} (hcall : s.callers t ≠ .idle) :
      CallerStep t s [.replaced t] { s with process := .replaced }
  | exitAccepted {s s' : AppState ι} (code : Int32) (hidle : s.callers t = .idle)
      (hsend : s.requestExit ⟨code, none⟩ = some s') : CallerStep t s [] s'
  | exitRejected {s : AppState ι} (code : Int32) (hidle : s.callers t = .idle)
      (hsend : s.requestExit ⟨code, none⟩ = none) :
      CallerStep t s [.cleanedUp] { s with process := .exited }
  | createWindow {s : AppState ι} (hidle : s.callers t = .idle) :
      CallerStep t s [] { s with windows := s.windows + 1 }

/-- The steps of the event loop. -/
inductive LoopStep : AppState ι → List (LogEntry ι) → AppState ι → Prop
  | requestExit {s : AppState ι} {m : RequestExit ι} {rest : List (RequestExit ι)}
      (hpolling : s.phase = .polling) (hqueue : s.queue = m :: rest) :
      LoopStep s [.received (.exitRequested (some m.code)) m.sender]
        ({ s with queue := rest }.call (.exitRequested (some m.code)) m.sender)
  | windowDestroyed {s : AppState ι} {n : Nat} (hpolling : s.phase = .polling)
      (hwindows : s.windows = n + 2) : LoopStep s [] { s with windows := n + 1 }
  | lastWindowDestroyed {s : AppState ι} (hpolling : s.phase = .polling)
      (hwindows : s.windows = 1) :
      LoopStep s [.received (.exitRequested none) none]
        ({ s with windows := 0 }.call (.exitRequested none) none)
  | event {s : AppState ι} (hpolling : s.phase = .polling) :
      LoopStep s [.received .other none] (s.call .other none)
  | loopDestroyed {s : AppState ι} (hpolling : s.phase = .polling)
      (hexit : s.controlFlow = .exit) : LoopStep s [.received .exit none] (s.call .exit none)
  | preventExit {s : AppState ι} {code : Option Int32} {sender : Option ι} {prevented : Bool}
      (hphase : s.phase = .inCallback (.exitRequested code) sender prevented) :
      LoopStep s [.prevented sender] { s with
        phase := .inCallback (.exitRequested code) sender true
        prevented := sender.toList ++ s.prevented }
  | callbackReturns {s : AppState ι} {event : RunEvent} {sender : Option ι} {prevented : Bool}
      (hphase : s.phase = .inCallback event sender prevented) :
      LoopStep s (cleanup event) (s.afterCallback event prevented)
  | processEnds {s : AppState ι} (hdestroyed : s.phase = .destroyed) :
      LoopStep s [] { s with process := .exited }

/-- A step of the application while its process runs. The event loop is on the thread `main`: the
calls of this thread come from handlers, and the event loop waits for them to return. -/
def Step [DecidableEq ι] (main : ι) (s : AppState ι) (es : List (LogEntry ι)) (s' : AppState ι) :
    Prop :=
  s.process = .running ∧
    ((∃ t, (t = main → s.phase.isCallback) ∧ CallerStep t s es s') ∨
      (s.callers main = .idle ∧ LoopStep s es s'))

/-! ### The exit protocol -/

/-- The callback has received `ExitRequested` for the restart of `t`. -/
def LogEntry.requested (t : ι) : LogEntry ι :=
  .received (.exitRequested (some restartExitCode)) (some t)

/-- The callback has received `Exit`. -/
def LogEntry.exit : LogEntry ι := .received .exit none

/-- The restart of `t` has gone through the exit protocol: the callback has received `ExitRequested`
for it and `Exit` after that, and no handler has prevented the exit. -/
def ThroughExit (t : ι) (es : List (LogEntry ι)) : Prop :=
  [LogEntry.requested t, .exit] <+ es ∧ .prevented (some t) ∉ es

instance [DecidableEq ι] (t : ι) (es : List (LogEntry ι)) : Decidable (ThroughExit t es) :=
  inferInstanceAs (Decidable (_ ∧ _))

/-- The event loop has taken the request of the restart of `t`, no handler has objected to it, and
the loop has got to its end. -/
def AppState.Exited (s : AppState ι) (t : ι) : Prop :=
  RequestExit.restart t ∉ s.queue ∧ t ∉ s.prevented ∧ s.phase.closing

/-- A thread whose request was sent replaces the process when the event loop has exited for it. -/
def ReplacesExited (s : AppState ι) (es : List (LogEntry ι)) : Prop :=
  ∀ t, .replaced t ∈ es → s.callers t = .accepted → s.Exited t

/-! ### What the log tells about the state -/

/-- The entries that say nothing about the exit protocol of a restart. -/
def LogEntry.silent : LogEntry ι → Bool
  | .accepted _ => false
  | .received (.exitRequested (some _)) (some _) => false
  | .received .exit _ => false
  | .prevented (some _) => false
  | _ => true

theorem AppState.requestExit_eq_some {s s' : AppState ι} {m : RequestExit ι}
    (h : s.requestExit m = some s') :
    s.phase ≠ .destroyed ∧ s' = { s with queue := s.queue ++ [m] } := by
  unfold requestExit at h
  split at h
  · cases h
  · next hphase => exact ⟨hphase, (Option.some.inj h).symm⟩

section Accounts

variable [DecidableEq ι]

/-- **The accounts of a run.** Every request that was sent for a restart is in the queue or was
received, once, and the other fields say what the state remembers of the log. -/
structure Accounts (es : List (LogEntry ι)) (s : AppState ι) : Prop where
  conserved : ∀ t, s.queue.count (.restart t) + es.count (.requested t) = es.count (.accepted t)
  called : ∀ t, es.count (.accepted t) = (s.callers t).requests
  prevented : ∀ t, t ∈ s.prevented ↔ .prevented (some t) ∈ es
  closing : s.phase.closing ↔ LogEntry.exit ∈ es
  ordered : s.phase.closing → ∀ t, .requested t ∈ es → [LogEntry.requested t, .exit] <+ es

theorem accounts_start : Accounts ([] : List (LogEntry ι)) {} :=
  ⟨by simp, by simp [Caller.requests], by simp, by simp [LoopPhase.closing],
    by simp [LoopPhase.closing]⟩

namespace Accounts

variable {es es' : List (LogEntry ι)} {s s' : AppState ι}

variable (h : Accounts es s)
include h

theorem frame (hlog : ∀ e ∈ es', e.silent)
    (hqueue : ∀ t, s'.queue.count (.restart t) = s.queue.count (.restart t))
    (hcallers : ∀ t, (s'.callers t).requests = (s.callers t).requests)
    (hprev : s'.prevented = s.prevented) (hcl : s'.phase.closing = s.phase.closing) :
    Accounts (es ++ es') s' := by
  have hfresh : ∀ e : LogEntry ι, e.silent = false → e ∉ es' := by
    intro e he hmem
    simp [hlog e hmem] at he
  have hcnt : ∀ e : LogEntry ι, e.silent = false → (es ++ es').count e = es.count e := by
    intro e he
    rw [count_append, count_eq_zero_of_not_mem (hfresh e he), Nat.add_zero]
  have hmem : ∀ e : LogEntry ι, e.silent = false → (e ∈ es ++ es' ↔ e ∈ es) := by
    intro e he
    simp [hfresh e he]
  refine ⟨fun t => ?_, fun t => ?_, fun t => ?_, ?_, fun hclosed t ht => ?_⟩
  · rw [hqueue, hcnt _ rfl, hcnt _ rfl]
    exact h.conserved t
  · rw [hcnt _ rfl, hcallers]
    exact h.called t
  · rw [hprev, hmem _ rfl]
    exact h.prevented t
  · rw [hcl, hmem _ rfl]
    exact h.closing
  · rw [hcl] at hclosed
    exact (h.ordered hclosed t ((hmem _ rfl).mp ht)).trans (sublist_append_left ..)

open LogEntry

theorem accepted {t : ι} (hidle : s.callers t = .idle) :
    Accounts (es ++ [.accepted t]) { s with
      queue := s.queue ++ [.restart t]
      callers := update s.callers t .accepted } := by
  refine ⟨fun t' => ?_, fun t' => ?_, fun t' => ?_, ?_, fun hclosed t' ht => ?_⟩
  · have hold := h.conserved t'
    by_cases ht : t = t'
    · subst ht
      simp [requested] at hold ⊢
      omega
    · simpa [count_append, count_singleton, RequestExit.restart, requested, ht]
        using hold
  · have hold := h.called t'
    by_cases ht : t' = t
    · subst ht
      simpa [hidle, Caller.requests] using hold
    · simp [count_append, Ne.symm ht, update_of_ne ht, hold]
  · simpa using h.prevented t'
  · simpa [exit] using h.closing
  · have hmem : .requested t' ∈ es := by simpa [requested] using ht
    exact (h.ordered hclosed t' hmem).trans (sublist_append_left ..)

open AppState

theorem taken {m : RequestExit ι} {rest : List (RequestExit ι)} (hpolling : s.phase = .polling)
    (hqueue : s.queue = m :: rest) :
    Accounts (es ++ [.received (.exitRequested (some m.code)) m.sender])
      ({ s with queue := rest }.call (.exitRequested (some m.code)) m.sender) := by
  have hopen : s.phase.closing = false := by rw [hpolling]; rfl
  refine ⟨fun t => ?_, fun t => ?_, fun t => ?_, ?_, nofun⟩
  · -- what leaves the queue is what is received
    have hold := h.conserved t
    have hsame : m = .restart t ↔
        received (.exitRequested (some m.code)) m.sender = .requested t := by
      simp [requested, RequestExit.restart, RequestExit.ext_iff]
    rw [hqueue, count_cons] at hold
    rw [count_append, count_append, count_singleton, count_singleton]
    simp only [beq_iff_eq, hsame, call] at hold ⊢
    simp only [reduceCtorEq, if_false]
    omega
  · simpa [count_append, call] using h.called t
  · simpa [call] using h.prevented t
  · have hexit := h.closing
    simp only [hopen] at hexit
    simpa [call, LoopPhase.closing, exit] using hexit

theorem destroyed : Accounts (es ++ [exit]) (s.call .exit none) := by
  refine ⟨fun t => ?_, fun t => ?_, fun t => ?_, ?_, fun _ t ht => ?_⟩
  · simpa [count_append, count_singleton, exit, requested,
      call] using h.conserved t
  · simpa [count_append, exit, call] using h.called t
  · simpa [exit, call] using h.prevented t
  · simp [call, LoopPhase.closing]
  · have hmem : .requested t ∈ es := by simpa [exit, requested] using ht
    exact (singleton_sublist.mpr hmem).append (Sublist.refl [exit])

theorem objected {code : Option Int32} {sender : Option ι} {prevented : Bool}
    (hphase : s.phase = .inCallback (.exitRequested code) sender prevented) :
    Accounts (es ++ [.prevented sender]) { s with
      phase := .inCallback (.exitRequested code) sender true
      prevented := sender.toList ++ s.prevented } := by
  have hopen : s.phase.closing = false := by rw [hphase]; rfl
  refine ⟨fun t => ?_, fun t => ?_, fun t => ?_, ?_, nofun⟩
  · simpa [count_append, count_singleton, LogEntry.requested] using h.conserved t
  · simpa [count_append, count_singleton] using h.called t
  · rw [mem_append, mem_append, h.prevented t, Option.mem_toList, mem_singleton,
      LogEntry.prevented.injEq, or_comm, eq_comm (a := some t)]
  · have hexit := h.closing
    simp only [hopen] at hexit
    simpa [LoopPhase.closing, LogEntry.exit] using hexit

theorem callerStep {t : ι} (hstep : CallerStep t s es' s') : Accounts (es ++ es') s' := by
  cases hstep with
  | restartAccepted hidle hsend =>
    obtain ⟨-, rfl⟩ := requestExit_eq_some hsend
    exact h.accepted hidle
  | restartRejected hidle =>
    refine h.frame (by simp [silent]) (fun _ => rfl) (fun t' => ?_) rfl rfl
    by_cases ht : t' = t
    · simp [ht, hidle, Caller.requests]
    · simp [update_of_ne ht]
  | replace | exitRejected =>
    exact h.frame (by simp [silent]) (fun _ => rfl) (fun _ => rfl) rfl rfl
  | exitAccepted code _ hsend =>
    obtain ⟨-, rfl⟩ := requestExit_eq_some hsend
    refine h.frame (by simp) (fun t' => ?_) (fun _ => rfl) rfl rfl
    simp [count_append, RequestExit.restart]
  | createWindow => exact h.frame (by simp) (fun _ => rfl) (fun _ => rfl) rfl rfl

theorem loopStep (hstep : LoopStep s es' s') : Accounts (es ++ es') s' := by
  cases hstep with
  | requestExit hpolling hqueue => exact h.taken hpolling hqueue
  | windowDestroyed | processEnds => exact h.frame (by simp) (fun _ => rfl) (fun _ => rfl) rfl rfl
  | lastWindowDestroyed hpolling | event hpolling =>
    refine h.frame (by simp [silent]) (fun _ => rfl) (fun _ => rfl) rfl ?_
    rw [hpolling]
    rfl
  | loopDestroyed => exact h.destroyed
  | preventExit hphase => exact h.objected hphase
  | @callbackReturns event _ _ hphase =>
    refine h.frame (fun e he => ?_) (by simp) (by simp) (by simp) ?_
    · rw [eq_of_mem_cleanup he]
      rfl
    · rw [hphase]
      cases event <;> rfl

end Accounts

theorem accounts_of_run {main : ι} {es : List (LogEntry ι)} {s : AppState ι}
    (run : Execution (Step main) {} es s) : Accounts es s := by
  refine run.invariant accounts_start ?_
  rintro es es' s s' - h ⟨-, ⟨t, -, hstep⟩ | ⟨-, hstep⟩⟩
  · exact h.callerStep hstep
  · exact h.loopStep hstep

theorem Accounts.throughExit_iff {es : List (LogEntry ι)} {s : AppState ι} (h : Accounts es s)
    {t : ι} (ht : s.callers t = .accepted) : ThroughExit t es ↔ s.Exited t := by
  have hone : s.queue.count (.restart t) + es.count (.requested t) = 1 := by
    rw [h.conserved t, h.called t, ht]
    rfl
  constructor
  · rintro ⟨hord, hprev⟩
    have hrec : 0 < es.count (.requested t) := count_pos_iff.mpr (hord.subset (by simp))
    refine ⟨count_eq_zero.mp (by omega), ?_, h.closing.mpr (hord.subset (by simp))⟩
    rwa [h.prevented t]
  · rintro ⟨hqueue, hprev, hcl⟩
    have hemp : s.queue.count (.restart t) = 0 := count_eq_zero.mpr hqueue
    have hrec : .requested t ∈ es := count_pos_iff.mp (by omega)
    exact ⟨h.ordered hcl t hrec, by rwa [← h.prevented t]⟩

end Accounts

/-! ### Restarts -/

section Restarts

variable [DecidableEq ι]

variable {main : ι} {s s' : AppState ι}

/-- The step that replaces the process is one of a thread that has sent its request or has failed
to. -/
theorem callers_of_replaced {t : ι} {l₁ l₂ : List (LogEntry ι)}
    (h : Step main s (l₁ ++ .replaced t :: l₂) s') : l₁ = [] ∧ s.callers t ≠ .idle := by
  generalize hes : l₁ ++ .replaced t :: l₂ = es at h
  have hmem : .replaced t ∈ es := hes ▸ by simp
  rcases h with ⟨-, ⟨t', -, hstep⟩ | ⟨-, hstep⟩⟩
  · cases hstep with
    | replace hcall =>
      cases mem_singleton.mp hmem
      rw [append_eq_singleton_iff] at hes
      exact ⟨by simpa using hes.elim And.left fun h => (cons_ne_nil _ _ h.2).elim, hcall⟩
    | _ => simp at hmem
  · cases hstep with
    | callbackReturns => cases eq_of_mem_cleanup hmem
    | _ => simp at hmem

/-- **Restarts and the exit protocol.** In every run in which the process is replaced only by
threads whose request the event loop has exited for, each restart whose request was sent has gone
through the exit protocol before the process is replaced. In the states of any run, this condition
is exact: a thread whose request was sent has gone through the exit protocol exactly when the event
loop has exited for it. -/
theorem restart_exits_first (main : ι) :
    (∀ (es : List (LogEntry ι)) (s : AppState ι),
      Execution (guarded ReplacesExited (Step main)) {} es s →
      ∀ (t : ι) (before after : List (LogEntry ι)), es = before ++ .replaced t :: after →
        .accepted t ∈ before → ThroughExit t before) ∧
      ∀ (es : List (LogEntry ι)) (s : AppState ι), Execution (Step main) {} es s →
        ∀ t : ι, s.callers t = .accepted → (ThroughExit t es ↔ s.Exited t) := by
  refine ⟨?_, fun es s run t ht => (accounts_of_run run).throughExit_iff ht⟩
  rintro es s run t before after rfl hacc
  obtain ⟨es₁, s₁, l₁, l₂, s₂, hrun, ⟨hstep, hcond⟩, rfl⟩ := run.exists_step_of_log
  obtain ⟨rfl, -⟩ := callers_of_replaced hstep
  rw [append_nil] at hacc ⊢
  have haccounts : Accounts es₁ s₁ := accounts_of_run (hrun.mono And.left)
  have hsent : s₁.callers t = .accepted := by
    have hpos : 0 < es₁.count (.accepted t) := count_pos_iff.mpr hacc
    rw [haccounts.called t] at hpos
    exact Caller.eq_accepted_of_requests hpos
  exact (haccounts.throughExit_iff hsent).mpr (hcond t (by simp) hsent)

namespace Sample

/-- The log of a worker whose restart waits for the event loop. -/
abbrev waitingLog : List (LogEntry Bool) := [.accepted true, .requested true, .exit]

/-- The worker `true` calls `restart`, the event loop on the thread `false` takes the request and is
destroyed, and only then the process is replaced. -/
theorem run_waiting : ∃ s,
    Execution (guarded ReplacesExited (Step false)) {} (waitingLog ++ [.replaced true]) s := by
  have hstart : Execution (guarded ReplacesExited (Step false)) {} [] {} := .start
  have hsent := hstart.next
    ⟨⟨rfl, .inl ⟨true, nofun, .restartAccepted rfl rfl⟩⟩, by simp [ReplacesExited]⟩
  have htaken := hsent.next ⟨⟨rfl, .inr ⟨rfl, .requestExit rfl rfl⟩⟩, by simp [ReplacesExited]⟩
  have hanswered := htaken.next
    ⟨⟨rfl, .inr ⟨rfl, .callbackReturns rfl⟩⟩, by simp [ReplacesExited, cleanup]⟩
  have hdestroyed := hanswered.next
    ⟨⟨rfl, .inr ⟨rfl, .loopDestroyed rfl rfl⟩⟩, by simp [ReplacesExited]⟩
  refine ⟨_, hdestroyed.next ⟨⟨rfl, .inl ⟨true, nofun, .replace nofun⟩⟩, ?_⟩⟩
  intro t ht _
  cases mem_singleton.mp ht
  exact ⟨not_mem_nil, not_mem_nil, rfl⟩

end Sample

/-- The restart that waits has gone through the exit protocol. -/
theorem sample_restart_waits :
    (∃ s, Execution (guarded ReplacesExited (Step false)) {}
      (Sample.waitingLog ++ [.replaced true]) s) ∧ ThroughExit true Sample.waitingLog := by
  obtain ⟨s, run⟩ := Sample.run_waiting
  exact ⟨⟨s, run⟩, (restart_exits_first false).1 _ s run true _ [] rfl (by simp)⟩

/-- Three restarts outside the exit protocol: a worker replaces the process while its request is in
the queue; it does so although a handler has prevented the exit; and a handler on the main thread
restarts, so that the event loop never gets to the request. -/
theorem restart_without_exit :
    (∃ s, Execution (Step false) {} [.accepted true, .replaced true] s ∧
        s.process = .replaced ∧ ¬ ThroughExit true [.accepted true]) ∧
      (∃ s, Execution (Step false) {}
          [.accepted true, .requested true, .prevented (some true), .replaced true] s ∧
        s.process = .replaced ∧
          ¬ ThroughExit true [.accepted true, .requested true, .prevented (some true)]) ∧
      ∃ s, Execution (Step false) {}
          [.received .other none, .accepted false, .replaced false] s ∧
        s.process = .replaced ∧ ¬ ThroughExit false [.received .other none, .accepted false] := by
  have hstart : Execution (Step false) {} [] {} := .start
  have hsent := hstart.next ⟨rfl, .inl ⟨true, nofun, .restartAccepted rfl rfl⟩⟩
  refine ⟨⟨_, hsent.next ⟨rfl, .inl ⟨true, nofun, .replace nofun⟩⟩, rfl, by decide⟩, ?_, ?_⟩
  · have htaken := hsent.next ⟨rfl, .inr ⟨rfl, .requestExit rfl rfl⟩⟩
    have hprev := htaken.next ⟨rfl, .inr ⟨rfl, .preventExit rfl⟩⟩
    exact ⟨_, hprev.next ⟨rfl, .inl ⟨true, nofun, .replace nofun⟩⟩, rfl, by decide⟩
  · have hev := hstart.next ⟨rfl, .inr ⟨rfl, .event rfl⟩⟩
    have hh := hev.next ⟨rfl, .inl ⟨false, fun _ => rfl, .restartAccepted rfl rfl⟩⟩
    exact ⟨_, hh.next ⟨rfl, .inl ⟨false, fun _ => rfl, .replace nofun⟩⟩, rfl, by decide⟩

variable {es : List (LogEntry ι)}

/-- The calls of a thread take nothing from the queue, and a thread comes behind its request by
sending it. -/
theorem CallerStep.queue {t t' : ι} (h : CallerStep t s es s') (ht' : s'.callers t' = .accepted)
    (hold : s.callers t' = .accepted → .restart t' ∈ s.queue) :
    .restart t' ∈ s'.queue := by
  cases h with
  | restartAccepted _ hsend =>
    obtain ⟨-, rfl⟩ := AppState.requestExit_eq_some hsend
    by_cases heq : t' = t
    · simp [heq]
    · simp only [update_of_ne heq] at ht'
      exact mem_append_left _ (hold ht')
  | restartRejected => grind
  | exitAccepted _ _ hsend =>
    obtain ⟨-, rfl⟩ := AppState.requestExit_eq_some hsend
    exact mem_append_left _ (hold ht')
  | replace | exitRejected | createWindow => exact hold ht'

omit [DecidableEq ι] in
theorem LoopStep.callers (h : LoopStep s es s') : s'.callers = s.callers := by
  cases h with
  | callbackReturns => exact AppState.callers_afterCallback ..
  | _ => rfl

/-- The request of a handler stays in the queue, as the event loop waits for the handler. -/
theorem mem_queue_of_handler (run : Execution (Step main) {} es s) :
    s.callers main = .accepted → .restart main ∈ s.queue := by
  refine run.invariant (I := fun _ s => s.callers main = .accepted → .restart main ∈ s.queue) ?_ ?_
  · exact fun h => by cases h
  · rintro es es' s s' - ih ⟨-, ⟨t, -, hstep⟩ | ⟨hidle, hstep⟩⟩ hmain
    · exact hstep.queue hmain ih
    · rw [hstep.callers, hidle] at hmain
      cases hmain

/-- **Restarts from handlers.** `ExitRequested` is not received for a restart that a handler on the
main thread calls, in any run. -/
theorem not_requested_of_handler (run : Execution (Step main) {} es s)
    (hmain : s.callers main = .accepted) : .requested main ∉ es := by
  have haccounts := accounts_of_run run
  have hone : s.queue.count (.restart main) + es.count (.requested main) = 1 := by
    rw [haccounts.conserved, haccounts.called, hmain]
    rfl
  have hqueue := count_pos_iff.mpr (mem_queue_of_handler run hmain)
  exact count_eq_zero.mp (by omega)

/-- The thread `false` runs the event loop, and the handler of an event restarts. -/
theorem sample_handler_restarts : ∃ es s, Execution (Step false) {} es s ∧
    s.callers false = .accepted ∧ .requested false ∉ es := by
  have hstart : Execution (Step false) {} [] {} := .start
  have hev := hstart.next ⟨rfl, .inr ⟨rfl, .event rfl⟩⟩
  have hh := hev.next ⟨rfl, .inl ⟨false, fun _ => rfl, .restartAccepted rfl rfl⟩⟩
  exact ⟨_, _, hh, rfl, not_requested_of_handler hh rfl⟩

end Restarts

end Tauri.App
