import Tauri.Event.Listeners

/-!
# Several threads

A call that finds the lock taken by another thread leaves its action in the queue and returns. It
relies on the emit that holds the lock to flush the queue. But the failed lock attempt and the push
are two steps: the emit can release the lock and take the queue in between. Moreover the lock may
be held by a thread that does not flush at all: an emit that calls no handler, a `listen` or an
`unlisten`. In these cases the action stays in the queue until some later emit calls a handler.

No action is lost in the runs in which every action is pushed while some emit that has called a
handler, or is going to, has still to take the queue.
-/

namespace Tauri.Events

open Rust List Function

variable {C W : Type}

/-- A thread with this frame on its stack is going to take the queue: it has called a handler
with the lock held, or is going to. -/
def Frame.willFlush : Frame C W → Bool
  | .deliver _ _ rest maybePending => maybePending || !rest.isEmpty
  | .flushPending => true
  | _ => false

/-- A thread with this frame on its stack is in an emit. A thread that panicked did not return
from one. -/
def Frame.inEmit : Frame C W → Bool
  | .attempt _ (.emit _ _) => true
  | .insertPending _ (.emit _) => true
  | .deliver _ _ _ _ => true
  | .flushPending => true
  | .replay _ => true
  | .panicked _ => true
  | _ => false

/-- The numbers of the calls that a frame is doing, or has still to do. -/
def Frame.numbers : Frame C W → List Nat
  | .attempt n _ => [n]
  | .insertPending n _ => [n]
  | .insert n _ _ _ => [n]
  | .remove n _ => [n]
  | .replay actions => actions.map Prod.fst
  | _ => []

/-- The thread is in a loop of `flush_pending`. -/
def Flushing (k : Stack C W) : Prop := ∃ actions, .replay actions ∈ k

/-- The call number `m` is being done, or is to be done, by a loop of `flush_pending`. -/
def Redoing (m : Nat) : Stack C W → Prop
  | [] => False
  | fr :: k => (m ∈ fr.numbers ∧ Flushing (fr :: k)) ∨ Redoing m k

def Panicked (k : Stack C W) : Prop := ∃ p, k = [.panicked p]

variable {body : C → Event → Script C W} {l l' : InnerListeners C W} {k k' : Stack C W}
  {es : List (Effect C)}

/-! ### One move -/

open Tauri.Events.Frame

theorem Transition.willFlush (h : Transition body l k es l' k')
    (hk : ∃ fr ∈ k, fr.willFlush = true) :
    l'.pending = [] ∨ (∃ fr ∈ k', fr.willFlush = true) ∨ Panicked k' := by
  obtain ⟨fr, hfr, hwill⟩ := hk
  cases h with
  | panic | callTwice => exact .inr (.inr ⟨_, rfl⟩)
  | flush => exact .inl rfl
  | finish _ _ mp =>
    refine .inr (.inl ?_)
    rcases mem_cons.mp hfr with rfl | hmem
    · have hmp : mp = true := by simpa [willFlush] using hwill
      exact ⟨.flushPending, by simp [hmp], rfl⟩
    · grind
  | callListen n args _ _ _ rest | callOnce n args _ _ _ _ rest =>
    refine .inr (.inl ?_)
    rcases mem_cons.mp hfr with rfl | hfr
    · exact ⟨.deliver n args rest true, by simp, by simp [willFlush]⟩
    · exact ⟨fr, by simp [hfr], hwill⟩
  | request | world => cases hfr
  | _ =>
    refine .inr (.inl ?_)
    rcases mem_cons.mp hfr with rfl | hfr
    · simp [willFlush] at hwill
    · exact ⟨fr, by simp [hfr], hwill⟩

variable {m : Nat}

theorem Redoing.flushing (h : Redoing m k) : Flushing k := by
  induction k with
  | nil => exact h.elim
  | cons fr k ih =>
    rcases h with ⟨-, hflush⟩ | h
    · exact hflush
    · obtain ⟨actions, hmem⟩ := ih h
      exact ⟨actions, mem_cons_of_mem _ hmem⟩

theorem Redoing.append (h : Redoing m k) (fs : Stack C W) : Redoing m (fs ++ k) := by
  induction fs with
  | nil => exact h
  | cons fr fs ih => exact .inr ih

theorem Flushing.of_cons {fr : Frame C W} (h : Flushing (fr :: k))
    (hfr : ∀ actions, fr ≠ .replay actions) : Flushing k := by
  obtain ⟨actions, hmem⟩ := h
  rcases mem_cons.mp hmem with heq | hmem
  · exact absurd heq.symm (hfr actions)
  · exact ⟨actions, hmem⟩

theorem Flushing.cons (fr : Frame C W) (h : Flushing k) : Flushing (fr :: k) := by
  obtain ⟨actions, hmem⟩ := h
  exact ⟨actions, mem_cons_of_mem _ hmem⟩

section

variable (h : Transition body l k es l' k')
include h

theorem Transition.queued (hm : m ∈ l.pending.map Prod.fst) :
    m ∈ l'.pending.map Prod.fst ∨ Redoing m k' := by
  cases h with
  | push =>
    rw [map_append]
    exact .inl (mem_append_left _ hm)
  | flush k => exact .inr (.inl ⟨hm, _, mem_cons_self⟩)
  | _ => exact .inl hm

/-- What a thread is doing again takes effect, or goes back to the queue, or is still being
done; or the thread panicked. -/
theorem Transition.redoing (hm : Redoing m k) :
    .applied m ∈ es ∨ m ∈ l'.pending.map Prod.fst ∨ Redoing m k' ∨ Panicked k' := by
  cases h with
  | panic | callTwice => exact .inr (.inr (.inr ⟨_, rfl⟩))
  | request | world => exact hm.elim
  | insert | remove =>
    rcases hm with ⟨hm, -⟩ | hm
    · exact .inl (by simpa [numbers] using hm)
    · exact .inr (.inr (.inl hm))
  | lockEmit =>
    rcases hm with ⟨hm, -⟩ | hm
    · exact .inl (by simpa [numbers] using hm)
    · exact .inr (.inr (.inl (hm.append [_])))
  | push =>
    rcases hm with ⟨hm, -⟩ | hm
    · exact .inr (.inl (by simp_all [numbers]))
    · exact .inr (.inr (.inl hm))
  | defer =>
    refine .inr (.inr (.inl ?_))
    rcases hm with ⟨hm, hflush⟩ | hm
    · exact .inl ⟨hm, (hflush.of_cons (by simp)).cons _⟩
    · exact .inr hm
  | lockInsert | lockRemove =>
    refine .inr (.inr (.inl ?_))
    rcases hm with ⟨hm, hflush⟩ | hm
    · exact .inl ⟨hm, ((hflush.of_cons (by simp)).cons _).cons _⟩
    · exact hm.append [_, _]
  | replayCons _ _ rest =>
    refine .inr (.inr (.inl ?_))
    rcases hm with ⟨hm, -⟩ | hm
    · rcases mem_cons.mp hm with rfl | hm
      · exact .inl ⟨mem_singleton_self _, rest, by simp⟩
      · exact .inr (.inl ⟨hm, rest, by simp⟩)
    · exact hm.append [_, _]
  | done | unlock | replayNil =>
    rcases hm with ⟨hm, -⟩ | hm
    · cases hm
    · exact .inr (.inr (.inl hm))
  | update | flush =>
    rcases hm with ⟨hm, -⟩ | hm
    · cases hm
    · exact .inr (.inr (.inl (hm.append [_])))
  | call | callListen =>
    rcases hm with ⟨hm, -⟩ | hm
    · cases hm
    · exact .inr (.inr (.inl (hm.append [_, _])))
  | callOnce =>
    rcases hm with ⟨hm, -⟩ | hm
    · cases hm
    · exact .inr (.inr (.inl (hm.append [_, _, _])))
  | finish _ _ mp =>
    rcases hm with ⟨hm, -⟩ | hm
    · cases hm
    · cases mp with
      | false => exact .inr (.inr (.inl (hm.append [.unlock])))
      | true => exact .inr (.inr (.inl (hm.append [.unlock, .flushPending])))

theorem Transition.mem_pending (hm : .deferred m ∈ es) : m ∈ l'.pending.map Prod.fst := by
  cases h with
  | push n =>
    have hmn : m = n := by simpa using hm
    simp [hmn]
  | _ => simp at hm

theorem Transition.exists_deferred (hl : l.pending = []) (hl' : l'.pending ≠ []) :
    ∃ m, .deferred m ∈ es := by
  cases h with
  | push n => exact ⟨n, by simp⟩
  | flush => exact absurd rfl hl'
  | _ => exact absurd hl hl'

theorem Transition.not_panicked : ¬ Panicked k := by
  rintro ⟨p, rfl⟩
  cases h

end

/-! ### Runs -/

variable {ι : Type} {s s' : InnerListeners C W × (ι → Stack C W)} {es' : List (Effect C)}

/-- Every action the step pushes is pushed while some thread is going to take the queue. -/
def PushedInTime (s : InnerListeners C W × (ι → Stack C W)) (es : List (Effect C)) : Prop :=
  ∀ m, .deferred m ∈ es → ∃ i, ∃ fr ∈ s.2 i, fr.willFlush = true

/-- Some thread is going to take the queue, or panicked. -/
def Attended (s : InnerListeners C W × (ι → Stack C W)) : Prop :=
  ∃ i, (∃ fr ∈ s.2 i, fr.willFlush = true) ∨ Panicked (s.2 i)

/-- Where a queued action is when it has not taken effect. -/
def Tracked (m : Nat) (s : InnerListeners C W × (ι → Stack C W)) : Prop :=
  m ∈ s.1.pending.map Prod.fst ∨ ∃ i, Redoing m (s.2 i) ∨ Panicked (s.2 i)

variable [DecidableEq ι]

theorem Attended.step (h : interleave (Move body) s es s') (hs : Attended s) :
    s'.1.pending = [] ∨ Attended s' := by
  obtain ⟨i, k, hmove, hk⟩ := h
  obtain ⟨j, hj⟩ := hs
  by_cases hji : j = i
  · subst hji
    have hwill := hj.resolve_right hmove.transition.not_panicked
    rcases hmove.transition.willFlush hwill with hnil | hk'
    · exact .inl hnil
    · refine .inr ⟨j, ?_⟩
      rw [hk, update_self]
      exact hk'
  · refine .inr ⟨j, ?_⟩
    rw [hk, update_of_ne hji]
    exact hj

theorem Tracked.step (h : interleave (Move body) s es s') (hs : Tracked m s) :
    .applied m ∈ es ∨ Tracked m s' := by
  obtain ⟨i, k, hmove, hk⟩ := h
  have hthread : Redoing m k ∨ Panicked k → Tracked m s' := by
    intro hk'
    refine .inr ⟨i, ?_⟩
    rw [hk, update_self]
    exact hk'
  rcases hs with hmem | ⟨j, hj⟩
  · rcases hmove.transition.queued hmem with hmem' | hredo
    · exact .inr (.inl hmem')
    · exact .inr (hthread (.inl hredo))
  · by_cases hji : j = i
    · subst hji
      have hredo := hj.resolve_right hmove.transition.not_panicked
      rcases hmove.transition.redoing hredo with happlied | hmem | hk'
      · exact .inl happlied
      · exact .inr (.inl hmem)
      · exact .inr (hthread hk')
    · refine .inr (.inr ⟨j, ?_⟩)
      rw [hk, update_of_ne hji]
      exact hj

theorem attended_of_execution {world : W}
    (h : Execution (guarded PushedInTime (interleave (Move body)))
      (.default world, fun _ => []) es s) : s.1.pending ≠ [] → Attended s := by
  refine h.invariant (I := fun _ s => s.1.pending ≠ [] → Attended s) (absurd rfl) ?_
  rintro es es' s s' - ih ⟨hstep, hcond⟩ hne
  have hs : Attended s := by
    by_cases hnil : s.1.pending = []
    · obtain ⟨i, k, hmove, -⟩ := hstep
      obtain ⟨m, hm⟩ := hmove.transition.exists_deferred hnil hne
      obtain ⟨j, hj⟩ := hcond m hm
      exact ⟨j, .inl hj⟩
    · exact ih hnil
  exact (hs.step hstep).resolve_left hne

theorem tracked_of_execution {world : W}
    (h : Execution (interleave (Move body)) (.default world, fun _ => []) es s) :
    .deferred m ∈ es → .applied m ∈ es ∨ Tracked m s := by
  refine h.invariant (I := fun es s => .deferred m ∈ es → .applied m ∈ es ∨ Tracked m s)
    (by simp) ?_
  intro es es' s s' _ ih hstep hm
  rcases List.mem_append.mp hm with hm | hm
  · rcases ih hm with happlied | hs
    · exact .inl (List.mem_append_left _ happlied)
    · rcases hs.step hstep with happlied | hs'
      · exact .inl (List.mem_append_right _ happlied)
      · exact .inr hs'
  · obtain ⟨i, k, hmove, -⟩ := hstep
    exact .inr (.inl (hmove.transition.mem_pending hm))

/-! ### Running a schedule -/

/-- Runs threads by a schedule, with the log: `(i, none)` is a step of thread `i`, `(i, some r)` a
call by thread `i`. It stops where there is no such move or the move does not meet the
condition `ok`. -/
def runSchedule (body : C → Event → Script C W) (o : IterOrder C)
    (ok : InnerListeners C W × (ι → Stack C W) → List (Effect C) → Bool) :
    List (ι × Option (Request C)) → InnerListeners C W × (ι → Stack C W) × List (Effect C) →
      InnerListeners C W × (ι → Stack C W) × List (Effect C)
  | [], s => s
  | (i, none) :: schedule, (l, ks, es) =>
    match step body o l (ks i) with
    | some (l', k', es') =>
      if ok (l, ks) es' then
        runSchedule body o ok schedule (l', Function.update ks i k', es ++ es')
      else (l, ks, es)
    | none => (l, ks, es)
  | (i, some r) :: schedule, (l, ks, es) =>
    match ks i with
    | [] =>
      if ok (l, ks) [.issued l.calls (l.toStore.issue r).2.1] then
        runSchedule body o ok schedule (⟨(l.toStore.issue r).1, l.pending, l.locked⟩,
          Function.update ks i [.attempt l.calls (l.toStore.issue r).2.1],
          es ++ [.issued l.calls (l.toStore.issue r).2.1])
      else (l, ks, es)
    | _ :: _ => (l, ks, es)

theorem execution_runSchedule {o : IterOrder C} {s₀ : InnerListeners C W × (ι → Stack C W)}
    {ok : InnerListeners C W × (ι → Stack C W) → List (Effect C) → Bool}
    (schedule : List (ι × Option (Request C))) {ks : ι → Stack C W}
    (h : Execution (guarded (fun s es => ok s es) (interleave (Move body))) s₀ es (l, ks)) :
    Execution (guarded (fun s es => ok s es) (interleave (Move body))) s₀
      (runSchedule body o ok schedule (l, ks, es)).2.2
      ((runSchedule body o ok schedule (l, ks, es)).1,
        (runSchedule body o ok schedule (l, ks, es)).2.1) := by
  induction schedule generalizing l ks es with
  | nil => exact h
  | cons move _ ih =>
    obtain ⟨i, _ | r⟩ := move
    · rw [runSchedule]
      cases hstep : step body o l (ks i) with
      | none => exact h
      | some next =>
        by_cases hok : ok (l, ks) next.2.2 = true
        · have hnext : guarded (fun s es => ok s es) (interleave (Move body)) (l, ks) next.2.2
              (next.1, update ks i next.2.1) := ⟨⟨i, _, .step o hstep, rfl⟩, hok⟩
          simp only [hok, if_true]
          exact ih (h.next hnext)
        · simp only [hok]
          exact h
    · rw [runSchedule]
      cases hks : ks i with
      | cons => exact h
      | nil =>
        by_cases hok : ok (l, ks) [.issued l.calls (l.toStore.issue r).2.1] = true
        · have hmove : Move body l (ks i) [.issued l.calls (l.toStore.issue r).2.1]
              ⟨(l.toStore.issue r).1, l.pending, l.locked⟩
              [.attempt l.calls (l.toStore.issue r).2.1] := by
            rw [hks]
            exact .request l r
          have hnext : guarded (fun s es => ok s es) (interleave (Move body)) (l, ks)
              [.issued l.calls (l.toStore.issue r).2.1]
              (⟨(l.toStore.issue r).1, l.pending, l.locked⟩,
                update ks i [.attempt l.calls (l.toStore.issue r).2.1]) :=
            ⟨⟨i, _, hmove, rfl⟩, hok⟩
          simp only [hok, if_true]
          exact ih (h.next hnext)
        · simp only [hok]
          exact h

namespace Sample

/-- Two threads run by a schedule from an empty registry; no handler does anything. -/
def runThreads (ok : InnerListeners Nat Unit × (Bool → Stack Nat Unit) → List (Effect Nat) → Bool)
    (schedule : List (Bool × Option (Request Nat))) :
    InnerListeners Nat Unit × (Bool → Stack Nat Unit) × List (Effect Nat) :=
  runSchedule (fun _ _ => .done) inOrder ok schedule (.default (), fun _ => [], [])

/-- The first thread registers a handler and emits its event; it holds the lock. The second
thread calls `listen` and finds the lock taken. -/
def lockTaken : List (Bool × Option (Request Nat)) :=
  [(false, some (.listen "x" .any 0)), (false, none), (false, none), (false, none),
    (false, some (.emit (args "x"))), (false, none),
    (true, some (.listen "y" .any 1)), (true, none)]

/-- The second thread pushes while the emit has still to call the handler. -/
def pushesInTime : List (Bool × Option (Request Nat)) :=
  lockTaken ++ [(true, none)] ++ List.replicate 10 (false, none)

/-- The emit calls the handler, releases the lock, takes the queue and returns; only then the
second thread pushes. -/
def pushesLate : List (Bool × Option (Request Nat)) :=
  lockTaken ++ List.replicate 6 (false, none) ++ [(true, none)]

theorem execution_runThreads
    (ok : InnerListeners Nat Unit × (Bool → Stack Nat Unit) → List (Effect Nat) → Bool)
    (schedule : List (Bool × Option (Request Nat))) :
    Execution (guarded (fun s es => ok s es) (interleave (Move fun _ _ => .done)))
      (.default (), fun _ => []) (runThreads ok schedule).2.2
      ((runThreads ok schedule).1, (runThreads ok schedule).2.1) :=
  execution_runSchedule schedule .start

/-- The test for `PushedInTime`. -/
def pushedInTime (s : InnerListeners Nat Unit × (Bool → Stack Nat Unit))
    (es : List (Effect Nat)) : Bool :=
  es.all (fun | .deferred _ => false | _ => true) ||
    [false, true].any fun i => (s.2 i).any Frame.willFlush

theorem pushedInTime_sound {s : InnerListeners Nat Unit × (Bool → Stack Nat Unit)}
    {es : List (Effect Nat)} (h : pushedInTime s es = true) : PushedInTime s es := by
  intro m hm
  rw [pushedInTime, Bool.or_eq_true] at h
  rcases h with hnone | hwill
  · have := List.all_eq_true.mp hnone _ hm
    cases this
  · obtain ⟨i, -, hi⟩ := List.any_eq_true.mp hwill
    exact ⟨i, by simpa using hi⟩

end Sample

open Sample

/-- **No action is lost.** Whatever threads share the registry and however their steps
interleave: in a run in which every action is pushed while some thread is going to take the
queue, whenever no thread is in an emit, the queue is empty and every action that was queued
has taken effect. -/
theorem deferred_applied {world : W}
    (h : Execution (guarded PushedInTime (interleave (Move body)))
      (.default world, fun _ => []) es s)
    (hreturned : ∀ i, ∀ fr ∈ s.2 i, fr.inEmit = false) :
    s.1.pending = [] ∧ ∀ m, .deferred m ∈ es → .applied m ∈ es := by
  have hpan : ∀ i, ¬ Panicked (s.2 i) := by
    rintro i ⟨p, hp⟩
    have := hreturned i (.panicked p) (by simp [hp])
    cases this
  have hnil : s.1.pending = [] := by
    by_contra hne
    obtain ⟨i, ⟨fr, hfr, hwill⟩ | hp⟩ := attended_of_execution h hne
    · have hin : fr.inEmit = true := by cases fr <;> simp_all [willFlush, inEmit]
      rw [hreturned i fr hfr] at hin
      cases hin
    · exact hpan i hp
  refine ⟨hnil, fun m hm => ?_⟩
  rcases tracked_of_execution (h.mono And.left) hm with happlied | hmem | ⟨i, hredo | hp⟩
  · exact happlied
  · simp [hnil] at hmem
  · obtain ⟨actions, hmem⟩ := hredo.flushing
    have := hreturned i _ hmem
    cases this
  · exact absurd hp (hpan i)

/-- The second thread pushes while the emit is calling handlers: the emit registers the handler
before it returns. -/
theorem sample_deferred_applied :
    let run := Sample.runThreads Sample.pushedInTime Sample.pushesInTime
    .deferred 2 ∈ run.2.2 ∧ run.1.pending = [] ∧
      ∀ m, .deferred m ∈ run.2.2 → .applied m ∈ run.2.2 := by
  intro run
  have hlog : run.2.2[5]? = some (.deferred 2) := rfl
  have hret : ∀ i, run.2.1 i = [] := by rintro (_ | _) <;> rfl
  have hguard : ∀ {s es s'}, guarded (fun s es => pushedInTime s es)
      (interleave (Move fun _ _ => .done)) s es s' →
      guarded PushedInTime (interleave (Move fun _ _ => .done)) s es s' :=
    fun h => ⟨h.1, pushedInTime_sound h.2⟩
  refine ⟨List.mem_of_getElem? hlog, deferred_applied
    ((execution_runThreads pushedInTime pushesInTime).mono hguard) ?_⟩
  intro i fr hfr
  have hnil : fr ∈ run.2.1 i := hfr
  rw [hret i] at hnil
  cases hnil

/-- The emit takes the queue between the failed lock attempt of the second thread and its push:
both threads have returned, and the handler stays in the queue. -/
theorem sample_deferred_stays :
    let run := Sample.runThreads (fun _ _ => true) Sample.pushesLate
    Execution (interleave (Move fun _ _ => .done)) (.default (), fun _ => []) run.2.2
        (run.1, run.2.1) ∧
      (∀ i, run.2.1 i = []) ∧ .deferred 2 ∈ run.2.2 ∧ .applied 2 ∉ run.2.2 ∧
      run.1.pending = [(2, .listen 1 "y" ⟨.any, .listen 1⟩)] := by
  intro run
  have hret : ∀ i, run.2.1 i = [] := by rintro (_ | _) <;> rfl
  have hlog : run.2.2 = [.issued 0 (.listen 0 "x" ⟨.any, .listen 0⟩), .applied 0,
      .issued 1 (.emit (args "x") none), .applied 1,
      .issued 2 (.listen 1 "y" ⟨.any, .listen 1⟩), .called 1 0 ⟨.any, .listen 0⟩,
      .deferred 2] := rfl
  refine ⟨(execution_runThreads _ _).mono And.left, hret, ?_, ?_, rfl⟩ <;> simp [hlog]

end Tauri.Events
