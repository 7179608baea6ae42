import Tauri.Event.Turn

/-!
# Handlers that run once

`once` wraps its handler into a closure that takes it out of a cell, runs it, and **then** calls
`unlisten`. When the closure is called for an emit, the lock is taken, so its `unlisten` goes to the
queue. Until it is done the closure is still registered, and if its event is delivered again in the
meantime, the cell is empty and the closure panics.

The handler itself runs at most once in every run. The panic is avoided in the runs in which, when
an emit is made, every `once` closure for its event that has run, or is going to run in the delivery
that is under way, already has its `unlisten` in the queue. The invariant behind it: in the list of
calls to be done, the `unlisten` of a closure that has run comes before every emit of its event.
-/

namespace Tauri.Events

open Rust List Function

variable {C W : Type}

/-! ### A removal before any emit -/

section Guarded

variable (event : String) (id : EventId)

/-- None of the calls is an emit of the event. -/
def NoEmit (calls : List (Nat × Op C)) : Prop :=
  ∀ na ∈ calls, ∀ args f, na.2 = .emit args f → args.eventName ≠ event

/-- The id is removed by one of the calls, and no emit of the event comes before that. -/
def Guarded (calls : List (Nat × Op C)) : Prop :=
  ∃ calls₁ m calls₂, calls = calls₁ ++ (m, .unlisten id) :: calls₂ ∧ NoEmit event calls₁

/-- No emit of the event comes before the id is removed, if it is removed. -/
def Safe (calls : List (Nat × Op C)) : Prop := Guarded event id calls ∨ NoEmit event calls

variable {event id} {calls calls' : List (Nat × Op C)} {no : Nat × Op C}

theorem NoEmit.append (h : NoEmit event calls) (h' : NoEmit event calls') :
    NoEmit event (calls ++ calls') := by
  intro na hna
  rcases mem_append.mp hna with hna | hna
  · exact h na hna
  · exact h' na hna

theorem Guarded.append (h : Guarded event id calls) : Guarded event id (calls ++ calls') := by
  obtain ⟨calls₁, m, calls₂, rfl, hno⟩ := h
  exact ⟨calls₁, m, calls₂ ++ calls', by simp, hno⟩

theorem Safe.append (h : Safe event id calls) (hno : NoEmit event [no]) :
    Safe event id (calls ++ [no]) := by
  rcases h with h | h
  · exact .inl h.append
  · exact .inr (h.append hno)

theorem Safe.removed (h : Safe event id calls) (m : Nat) :
    Guarded event id (calls ++ [(m, .unlisten id)]) := by
  rcases h with h | h
  · exact h.append
  · exact ⟨calls, m, [], rfl, h⟩

theorem guarded_append_iff : Guarded event id (calls ++ calls') ↔
    Guarded event id calls ∨ NoEmit event calls ∧ Guarded event id calls' := by
  constructor
  · rintro ⟨calls₁, m, calls₂, heq, hno⟩
    rcases append_eq_append_iff.mp heq with ⟨rest, rfl, hrest⟩ | ⟨rest, hcalls, hrest⟩
    · have hcalls : NoEmit event calls := fun na hna => hno na (mem_append_left _ hna)
      exact .inr ⟨hcalls, rest, m, calls₂, hrest,
        fun na hna => hno na (mem_append_right _ hna)⟩
    · cases rest with
      | nil =>
        rw [append_nil] at hcalls
        subst hcalls
        exact .inr ⟨hno, [], m, calls₂, hrest.symm, by simp [NoEmit]⟩
      | cons head rest =>
        cases (cons.inj hrest).1
        exact .inl ⟨calls₁, m, rest, hcalls, hno⟩
  · rintro (h | ⟨hno, calls₁, m, calls₂, rfl, hno'⟩)
    · exact h.append
    · exact ⟨calls ++ calls₁, m, calls₂, by simp, hno.append hno'⟩

theorem NoEmit.guarded_of_mem (h : NoEmit event calls) (hmem : ∃ m, (m, .unlisten id) ∈ calls) :
    Guarded event id calls := by
  obtain ⟨m, hm⟩ := hmem
  obtain ⟨before, after, rfl⟩ := append_of_mem hm
  exact ⟨before, m, after, rfl, fun na hna => h na (mem_append_left _ hna)⟩

theorem Guarded.of_append (h : Guarded event id (calls ++ calls'))
    (hmem : ∃ m, (m, .unlisten id) ∈ calls) : Guarded event id calls := by
  rcases guarded_append_iff.mp h with h | ⟨hno, -⟩
  · exact h
  · exact hno.guarded_of_mem hmem

theorem Safe.of_mem (h : Safe event id calls) (hmem : ∃ m, (m, .unlisten id) ∈ calls) :
    Guarded event id calls := by
  rcases h with h | h
  · exact h
  · exact h.guarded_of_mem hmem

theorem Guarded.insert (h : Guarded event id (calls ++ calls')) (hno : NoEmit event [no]) :
    Guarded event id (calls ++ [no] ++ calls') := by
  rcases guarded_append_iff.mp h with h | ⟨hcalls, h⟩
  · exact h.append.append
  · exact guarded_append_iff.mpr (.inr ⟨hcalls.append hno, h⟩)

theorem Guarded.tail {n : Nat} {op : Op C} (h : Guarded event id ((n, op) :: calls))
    (hne : op ≠ .unlisten id) : Guarded event id calls := by
  obtain ⟨calls₁, m, calls₂, heq, hno⟩ := h
  cases calls₁ with
  | nil =>
    cases heq
    exact absurd rfl hne
  | cons head calls₁ =>
    cases (cons.inj heq).1
    exact ⟨calls₁, m, calls₂, (cons.inj heq).2,
      fun na hna => hno na (mem_cons_of_mem _ hna)⟩

theorem Guarded.eventName_ne {n : Nat} {args : EmitArgs} {f : Option Filter}
    (h : Guarded event id ((n, .emit args f) :: calls)) : args.eventName ≠ event := by
  obtain ⟨calls₁, m, calls₂, heq, hno⟩ := h
  cases calls₁ with
  | nil => cases heq
  | cons =>
    cases (cons.inj heq).1
    exact hno _ mem_cons_self args f rfl

theorem not_guarded_nil : ¬ Guarded event id ([] : List (Nat × Op C)) := by
  rintro ⟨calls₁, m, calls₂, heq, -⟩
  cases calls₁ <;> cases heq

end Guarded

/-! ### The invariant -/

/-- The rest of the code of the handlers that are running. -/
def Task.scripts : Task C W → List (Script C W)
  | .delivering _ _ _ scripts => scripts
  | _ => []

/-- The calls a turn has still to do, in the order they are done. -/
def Turn.agenda (t : Turn C W) : List (Nat × Op C) := t.queue ++ t.waiting

/-- A `once` closure is registered for the event under the id, with the given cell. -/
def Store.FindsOnce (s : Store C W) (event : String) (id : EventId) (cell : Nat) : Prop :=
  ∃ target, s.find event id = some ⟨target, .once cell⟩

variable {s : Store C W} {event : String} {id : EventId} {cell : Nat} {r : Request C}

open Store

theorem Store.FindsOnce.of_removeHandler {removed : EventId}
    (h : (s.removeHandler removed).FindsOnce event id cell) :
    s.FindsOnce event id cell ∧ removed ≠ id := by
  obtain ⟨target, hfind⟩ := h
  rw [find_removeHandler] at hfind
  split_ifs at hfind with heq
  exact ⟨⟨target, hfind⟩, heq⟩

theorem Store.FindsOnce.of_issue (h : (s.issue r).1.FindsOnce event id cell) :
    s.FindsOnce event id cell := by
  obtain ⟨target, hfind⟩ := h
  exact ⟨target, by rwa [issue_find] at hfind⟩

theorem Store.issue_cells (h : cell < s.calls) : (s.issue r).1.cells cell = s.cells cell := by
  cases r with
  | once => exact update_of_ne h.ne _ _
  | _ => rfl

/-- When an emit is made, every `once` closure registered for its event that has run, or that the
delivery under way is going to call, has its `unlisten` in the queue. -/
def OnceRemoved (s : InnerListeners C W × Stack C W) (es : List (Effect C)) : Prop :=
  ∀ n args f, .issued n (.emit args f) ∈ es → ∀ id cell, s.1.FindsOnce args.eventName id cell →
    (s.1.cells cell = none ∨ (args.eventName, id) ∈ s.2.flatMap Frame.toCall) →
    ∃ m, (m, .unlisten id) ∈ s.1.pending

/-- `OnceRemoved`, seen from the turn. -/
def Turn.OnceRemoved (t : Turn C W) (es : List (Effect C)) : Prop :=
  ∀ n args f, .issued n (.emit args f) ∈ es → ∀ id cell, t.store.FindsOnce args.eventName id cell →
    (t.store.cells cell = none ∨ (args.eventName, id) ∈ t.task.toCall) →
    ∃ m, (m, .unlisten id) ∈ t.queue

theorem visible_onceRemoved : Visible (OnceRemoved (C := C) (W := W)) Turn.OnceRemoved where
  aligned := by
    intro l k t es hal h n args f hiss id cell hfind hrun
    rw [hal.store] at hfind hrun
    rw [hal.toCall] at hrun
    obtain ⟨m, hm⟩ := h n args f hiss id cell hfind hrun
    refine ⟨m, ?_⟩
    rw [hal.queue]
    exact mem_map.mpr ⟨_, hm, rfl⟩
  quiet := fun hno n args f hiss => absurd hiss (hno n _)

/-- The cells: the closure that a waiting `listen` is going to register has the cell of that call
and has not run, and no cell belongs to two closures. -/
structure CellsOwned (s : Store C W) (agenda : List (Nat × Op C)) : Prop where
  lt_calls : ∀ na ∈ agenda, na.1 < s.calls
  nodup : (agenda.map Prod.fst).Nodup
  waiting : ∀ {m id event target cell}, (m, .listen id event ⟨target, .once cell⟩) ∈ agenda →
    cell = m ∧ s.cells m ≠ none
  registered : ∀ {event id cell}, s.FindsOnce event id cell →
    cell < s.calls ∧ cell ∉ agenda.map Prod.fst
  unique : ∀ {event id event' id' cell}, s.FindsOnce event id cell →
    s.FindsOnce event' id' cell → event = event' ∧ id = id'

namespace CellsOwned

variable {s : Store C W} {agenda agenda' : List (Nat × Op C)} {n : Nat}

theorem issued (h : CellsOwned s (agenda ++ agenda')) (r : Request C) {op : Op C}
    (hop : op = (s.issue r).2.1 ∨ op = (s.issue r).2.1.replayed) :
    CellsOwned (s.issue r).1 (agenda ++ [(s.calls, op)] ++ agenda') := by
  have hperm : (agenda ++ [(s.calls, op)] ++ agenda').Perm
      ((s.calls, op) :: (agenda ++ agenda')) := by
    rw [append_assoc, singleton_append]
    exact perm_middle
  constructor
  · intro na hna
    rw [issue_calls]
    rcases mem_cons.mp (hperm.mem_iff.mp hna) with rfl | hna
    · exact Nat.lt_succ_self _
    · exact (h.lt_calls na hna).trans (Nat.lt_succ_self _)
  · rw [(hperm.map Prod.fst).nodup_iff, map_cons, nodup_cons]
    refine ⟨fun hmem => ?_, h.nodup⟩
    obtain ⟨na, hna, hcalls⟩ := mem_map.mp hmem
    exact (h.lt_calls na hna).ne hcalls
  · intro m id event target cell hmem
    rcases mem_cons.mp (hperm.mem_iff.mp hmem) with heq | hmem
    · obtain ⟨rfl, rfl⟩ := Prod.mk.inj heq
      cases r with
      | once =>
        rcases hop with hop | hop <;> cases hop <;> exact ⟨rfl, by simp [issue]⟩
      | _ => rcases hop with hop | hop <;> cases hop
    · obtain ⟨hcell, htaken⟩ := h.waiting hmem
      exact ⟨hcell, by rwa [issue_cells (h.lt_calls _ hmem)]⟩
  · intro event id cell hfinds
    obtain ⟨hlt, hnumbers⟩ := h.registered hfinds.of_issue
    rw [issue_calls, (hperm.map Prod.fst).mem_iff, map_cons, mem_cons]
    exact ⟨hlt.trans (Nat.lt_succ_self _), not_or.mpr ⟨hlt.ne, hnumbers⟩⟩
  · intro event id event' id' cell hfinds hfinds'
    exact h.unique hfinds.of_issue hfinds'.of_issue

theorem tail {op : Op C} (h : CellsOwned s ((n, op) :: agenda)) : CellsOwned s agenda where
  lt_calls := fun na hna => h.lt_calls na (mem_cons_of_mem _ hna)
  nodup := (nodup_cons.mp h.nodup).2
  waiting := fun hmem => h.waiting (mem_cons_of_mem _ hmem)
  registered := fun hfinds => ⟨(h.registered hfinds).1,
    fun hmem => (h.registered hfinds).2 (mem_cons_of_mem _ hmem)⟩
  unique := h.unique

variable {id : EventId}

theorem insert {event : String} {handler : Handler C}
    (h : CellsOwned s ((n, .listen id event handler) :: agenda)) :
    CellsOwned (s.insertHandler id event handler) agenda := by
  -- a closure that is registered now was registered before, or has the cell of this call
  have hfind : ∀ {event' id' cell}, (s.insertHandler id event handler).FindsOnce event' id' cell →
      s.FindsOnce event' id' cell ∨ event' = event ∧ id' = id ∧ cell = n := by
    rintro event' id' cell ⟨target, hfind⟩
    rw [find_insertHandler] at hfind
    split_ifs at hfind with heq
    · cases hfind
      exact .inr ⟨heq.1.symm, heq.2.symm, (h.waiting mem_cons_self).1⟩
    · exact .inl ⟨target, hfind⟩
  have hnot : n ∉ agenda.map Prod.fst := (nodup_cons.mp h.nodup).1
  have hnew : ∀ {event' id'}, ¬ s.FindsOnce event' id' n := fun hfinds =>
    (h.registered hfinds).2 mem_cons_self
  refine ⟨h.tail.lt_calls, h.tail.nodup, h.tail.waiting, fun hfinds => ?_, fun hfinds hfinds' => ?_⟩
  · rcases hfind hfinds with hold | ⟨-, -, rfl⟩
    · exact h.tail.registered hold
    · exact ⟨h.lt_calls _ mem_cons_self, hnot⟩
  · rcases hfind hfinds with hold | ⟨hev, hid, rfl⟩
    · rcases hfind hfinds' with hold' | ⟨-, -, rfl⟩
      · exact h.unique hold hold'
      · exact absurd hold hnew
    · grind

theorem remove (h : CellsOwned s agenda) : CellsOwned (s.removeHandler id) agenda := by
  refine ⟨h.lt_calls, h.nodup, h.waiting, fun hfinds => ?_, fun hfinds hfinds' => ?_⟩
  · exact h.registered hfinds.of_removeHandler.1
  · exact h.unique hfinds.of_removeHandler.1 hfinds'.of_removeHandler.1

theorem take {event : String} {cell : Nat} (h : CellsOwned s agenda)
    (hfinds : s.FindsOnce event id cell) :
    CellsOwned { s with cells := update s.cells cell none } agenda := by
  refine ⟨h.lt_calls, h.nodup, fun {m _ _ _ cell'} hmem => ?_, h.registered, h.unique⟩
  obtain ⟨hcell, htaken⟩ := h.waiting hmem
  have hne : m ≠ cell := by
    rintro rfl
    exact (h.registered hfinds).2 (mem_map.mpr ⟨_, hmem, rfl⟩)
  exact ⟨hcell, by simpa only [update_of_ne hne] using htaken⟩

end CellsOwned

/-- The closures: one that has run is removed before its event is emitted again, and one that is
going to be called has not run. -/
structure RunsOnce (t : Turn C W) : Prop where
  taken : ∀ {event id cell}, t.store.FindsOnce event id cell → t.store.cells cell = none →
    Guarded event id t.agenda ∨
      Safe event id t.queue ∧ ∃ k, .call (.unlisten id) k ∈ t.task.scripts
  nodup : ∀ {n args rest scripts}, t.task = .delivering n args rest scripts →
    (rest.map Prod.fst).Nodup
  toCall : ∀ {n args rest scripts}, t.task = .delivering n args rest scripts →
    ∀ id target cell, (id, ⟨target, .once cell⟩) ∈ rest →
      t.store.FindsOnce args.eventName id cell ∧ t.store.cells cell ≠ none ∧
        Safe args.eventName id t.queue

variable {t : Turn C W}

theorem RunsOnce.guarded (h : RunsOnce t) (hscrs : t.task.scripts = [])
    (hfinds : t.store.FindsOnce event id cell) (htaken : t.store.cells cell = none) :
    Guarded event id t.agenda := by
  rcases h.taken hfinds htaken with hguard | ⟨-, k, hk⟩
  · exact hguard
  · rw [hscrs] at hk
    cases hk

variable {body : C → Event → Script C W}

variable {t' : Turn C W} {es : List (Effect C)} {n : Nat} {rest : List (EventId × Handler C)}
  {queue waiting : List (Nat × Op C)}

theorem Turn.Step.cellsOwned (h : t.Step body es t') (hold : CellsOwned t.store t.agenda)
    (hruns : RunsOnce t) : CellsOwned t'.store t'.agenda := by
  cases h with
  | request s r =>
    have hnone : CellsOwned s ([] ++ []) := hold
    exact hnone.issued r (.inl rfl)
  | world s w | update =>
    exact ⟨hold.lt_calls, hold.nodup, hold.waiting, hold.registered, hold.unique⟩
  | insert => exact CellsOwned.insert hold
  | remove => exact (CellsOwned.tail hold).remove
  | deliver => exact CellsOwned.tail hold
  | callOnce =>
    exact hold.take (hruns.toCall rfl _ _ _ mem_cons_self).1
  | call _ _ _ _ r => exact CellsOwned.issued hold r (.inr rfl)
  | _ => exact hold

private theorem noEmit_issued
    (h : ¬ ∃ args f, (s.issue r).2.1 = .emit args f ∧ args.eventName = event) :
    NoEmit event [(s.calls, (s.issue r).2.1.replayed)] := by
  refine forall_mem_singleton.mpr fun args f hop => ?_
  intro hev
  cases hissue : (s.issue r).2.1 with
  | emit args' f' =>
    rw [hissue] at hop
    cases hop
    exact h ⟨args, f', hissue, hev⟩
  | listen | unlisten =>
    rw [hissue] at hop
    cases hop

private theorem RunsOnce.call {args : EmitArgs} {script : Option EventId → Script C W}
    {scripts : List (Script C W)}
    (hruns : RunsOnce ⟨s, .delivering n args rest (.call r script :: scripts), queue, waiting⟩)
    (howned : CellsOwned s (queue ++ waiting))
    (hcond : Turn.OnceRemoved ⟨s, .delivering n args rest (.call r script :: scripts), queue,
      waiting⟩ [.issued s.calls (s.issue r).2.1]) :
    RunsOnce ⟨(s.issue r).1, .delivering n args rest (script (s.issue r).2.2 :: scripts),
      queue ++ [(s.calls, (s.issue r).2.1.replayed)], waiting⟩ := by
  -- an emit of the event of a closure that has run or is going to run finds it removed
  have hrm : ∀ {event id cell}, s.FindsOnce event id cell →
      (s.cells cell = none ∨ (event, id) ∈ rest.map fun ih => (args.eventName, ih.1)) →
      (∃ args' f, (s.issue r).2.1 = .emit args' f ∧ args'.eventName = event) →
      ∃ m, (m, .unlisten id) ∈ queue := by
    rintro event id cell hfinds hdue ⟨args', f, hissue, rfl⟩
    exact hcond s.calls args' f (by rw [hissue]; exact mem_singleton_self _) id cell
      hfinds hdue
  refine ⟨fun {event id cell} hfinds htaken => ?_, fun heq => ?_, fun heq id target cell hmem => ?_⟩
  · have hfinds' := hfinds.of_issue
    have htaken' : s.cells cell = none := by
      rw [← issue_cells (howned.registered hfinds').1]
      exact htaken
    have hold := hruns.taken hfinds' htaken'
    by_cases hemit : ∃ args' f, (s.issue r).2.1 = .emit args' f ∧ args'.eventName = event
    · have hmem := hrm hfinds' (.inl htaken') hemit
      have hguard : Guarded event id queue := by
        rcases hold with hold | ⟨hsafe, -⟩
        · exact Guarded.of_append hold hmem
        · exact hsafe.of_mem hmem
      exact .inl (hguard.append.append)
    · have hno := noEmit_issued hemit
      rcases hold with hold | ⟨hsafe, k, hk⟩
      · exact .inl (Guarded.insert hold hno)
      · rcases mem_cons.mp hk with heq | hk
        · cases heq
          exact .inl (hsafe.removed s.calls).append
        · exact .inr ⟨hsafe.append hno, k, mem_cons_of_mem _ hk⟩
  · cases heq
    exact hruns.nodup rfl
  · cases heq
    obtain ⟨hfinds, htaken, hsafe⟩ := hruns.toCall rfl _ _ _ hmem
    obtain ⟨target', hfind⟩ := hfinds
    have hfinds : s.FindsOnce args.eventName id cell := ⟨target', hfind⟩
    refine ⟨⟨target', by rw [issue_find]; exact hfind⟩, ?_, ?_⟩
    · rw [issue_cells (howned.registered hfinds).1]
      exact htaken
    · by_cases hemit : ∃ args' f, (s.issue r).2.1 = .emit args' f ∧ args'.eventName = args.eventName
      · have hdue : (args.eventName, id) ∈ rest.map fun ih => (args.eventName, ih.1) :=
          mem_map.mpr ⟨_, hmem, rfl⟩
        exact .inl (hsafe.of_mem (hrm hfinds (.inr hdue) hemit)).append
      · exact hsafe.append (noEmit_issued hemit)

private theorem RunsOnce.scripts {args : EmitArgs} {scripts scripts' : List (Script C W)}
    (hruns : RunsOnce ⟨s, .delivering n args rest scripts, queue, waiting⟩)
    (hscrs : ∀ id k, .call (.unlisten id) k ∈ scripts → .call (.unlisten id) k ∈ scripts') :
    RunsOnce ⟨s, .delivering n args rest scripts', queue, waiting⟩ := by
  refine ⟨fun hfinds htaken => ?_, fun heq => ?_, fun heq => ?_⟩
  · refine (hruns.taken hfinds htaken).imp_right fun ⟨hsafe, k, hk⟩ => ⟨hsafe, k, ?_⟩
    exact hscrs _ k hk
  · cases heq
    exact hruns.nodup rfl
  · cases heq
    exact hruns.toCall rfl

private theorem RunsOnce.take {args : EmitArgs} {target : EventTarget} (hruns : RunsOnce
      ⟨s, .delivering n args ((id, ⟨target, .once cell⟩) :: rest) [], queue, waiting⟩)
    (howned : CellsOwned s (queue ++ waiting)) (script : Script C W) :
    RunsOnce ⟨{ s with cells := update s.cells cell none },
      .delivering n args rest [script, .call (.unlisten id) fun _ => .done], queue, waiting⟩ := by
  obtain ⟨hfinds₀, -, hsafe⟩ := hruns.toCall rfl _ _ _ mem_cons_self
  obtain ⟨hid, hnd⟩ := nodup_cons.mp (hruns.nodup rfl)
  refine ⟨fun {event' id' cell'} hfinds htaken => ?_, fun heq => ?_,
    fun heq id' target' cell' hmem => ?_⟩
  · by_cases hsame : cell' = cell
    · subst hsame
      obtain ⟨rfl, rfl⟩ := howned.unique hfinds hfinds₀
      exact .inr ⟨hsafe, _, mem_cons_of_mem _ mem_cons_self⟩
    · have htaken' : s.cells cell' = none := by
        simpa only [update_of_ne hsame] using htaken
      exact .inl (hruns.guarded rfl hfinds htaken')
  · cases heq
    exact hnd
  · cases heq
    obtain ⟨hfinds, htaken, hsafe'⟩ := hruns.toCall rfl _ _ _ (mem_cons_of_mem _ hmem)
    have hsame : cell' ≠ cell := by
      rintro rfl
      obtain ⟨-, rfl⟩ := howned.unique hfinds hfinds₀
      exact hid (mem_map.mpr ⟨_, hmem, rfl⟩)
    exact ⟨hfinds, by simpa only [update_of_ne hsame] using htaken, hsafe'⟩

theorem Turn.Step.runsOnce (h : t.Step body es t') (hcond : t.OnceRemoved es)
    (howned : CellsOwned t.store t.agenda) (hruns : RunsOnce t) :
    RunsOnce t' ∨ t'.task = .panicked .handler := by
  cases h with
  | request s r =>
    refine .inl ⟨fun {event id cell} hfinds htaken => ?_, nofun, nofun⟩
    have hfinds' := hfinds.of_issue
    have htaken' : s.cells cell = none := by
      rw [← issue_cells (howned.registered hfinds').1]
      exact htaken
    exact absurd (hruns.guarded rfl hfinds' htaken') not_guarded_nil
  | world s w => exact .inl ⟨hruns.taken, nofun, nofun⟩
  | insert =>
    refine .inl ⟨fun {event' id' cell} hfinds htaken => ?_, nofun, nofun⟩
    obtain ⟨target, hfind⟩ := hfinds
    rw [find_insertHandler] at hfind
    split_ifs at hfind with heq
    · cases hfind
      obtain ⟨rfl, hnot⟩ := howned.waiting mem_cons_self
      exact absurd htaken hnot
    · exact .inl (Guarded.tail (hruns.guarded rfl ⟨target, hfind⟩ htaken) (by simp))
  | remove =>
    refine .inl ⟨fun {event' id' cell} hfinds htaken => ?_, nofun, nofun⟩
    obtain ⟨hfinds', hne⟩ := hfinds.of_removeHandler
    have hguard := hruns.guarded rfl hfinds' htaken
    exact .inl (Guarded.tail hguard fun heq => hne (Op.unlisten.inj heq))
  | deliver s n args filter rest waiting hperm =>
    have hguard : ∀ {event id cell}, s.FindsOnce event id cell → s.cells cell = none →
        Guarded event id ((n, .emit args filter) :: waiting) := hruns.guarded rfl
    refine .inl ⟨fun hfinds htaken => .inl ?_, fun heq => ?_, fun heq id target cell hmem => ?_⟩
    · exact Guarded.tail (hguard hfinds htaken) (by simp)
    · cases heq
      exact (hperm.map Prod.fst).nodup_iff.mpr (s.nodup_matching args filter)
    · cases heq
      have hfind := (mem_matching.mp (hperm.mem_iff.mp hmem)).1
      refine ⟨⟨target, hfind⟩, fun htaken => ?_, .inr (by simp [NoEmit])⟩
      exact (hguard ⟨target, hfind⟩ htaken).eventName_ne rfl
  | callListen =>
    refine .inl ⟨fun hfinds htaken => ?_, fun heq => ?_, fun heq id' target' cell' hmem => ?_⟩
    · exact .inl (hruns.guarded rfl hfinds htaken)
    · cases heq
      exact (nodup_cons.mp (hruns.nodup rfl)).2
    · cases heq
      exact hruns.toCall rfl _ _ _ (mem_cons_of_mem _ hmem)
  | callOnce => exact .inl (hruns.take howned _)
  | callTwice _ _ _ _ _ _ _ _ _ hcell =>
    exact absurd hcell (hruns.toCall rfl _ _ _ mem_cons_self).2.1
  | done =>
    exact .inl (hruns.scripts fun id k hk => (mem_cons.mp hk).resolve_left (by simp))
  | panic => exact .inr rfl
  | update s n args rest f script scripts queue waiting =>
    have hscrs : RunsOnce
        ⟨s, .delivering n args rest (script s.world :: scripts), queue, waiting⟩ :=
      hruns.scripts fun id k hk =>
        mem_cons_of_mem _ ((mem_cons.mp hk).resolve_left (by simp))
    exact .inl ⟨hscrs.taken, hscrs.nodup, hscrs.toCall⟩
  | call => exact .inl (hruns.call howned hcond)
  | queued => exact .inl hruns
  | finish =>
    exact .inl ⟨fun hfinds htaken => .inl (hruns.guarded rfl hfinds htaken), nofun, nofun⟩

/-! ### All runs -/

/-- The times the handler in a cell was run. -/
def runsOf (cell : Nat) (es : List (Effect C)) : List (Effect C) :=
  es.filter fun
    | .called _ _ ⟨_, .once c⟩ => c == cell
    | _ => false

theorem Turn.Step.cells_eq_none (h : t.Step body es t') (hlt : cell < t.store.calls)
    (hnone : t.store.cells cell = none) : t'.store.cells cell = none ∧ cell < t'.store.calls := by
  have hiss : ∀ {s : Store C W} (r : Request C), cell < s.calls → s.cells cell = none →
      (s.issue r).1.cells cell = none ∧ cell < (s.issue r).1.calls := by
    intro s r hlt hnone
    rw [issue_cells hlt, issue_calls]
    exact ⟨hnone, hlt.trans (Nat.lt_succ_self _)⟩
  cases h with
  | request s r | call _ _ _ _ r => exact hiss r hlt hnone
  | callOnce => grind
  | _ => exact ⟨hnone, hlt⟩

/-- What holds along a run of a turn that meets the condition: every cell was emptied at most
once; and, unless a handler panicked, the cells are owned, the closures run once, and none
panics. -/
structure OnceInvariant (es : List (Effect C)) (t : Turn C W) : Prop where
  length_le : ∀ cell, (runsOf cell es).length ≤ 1
  emptied : ∀ cell, runsOf cell es ≠ [] → t.store.cells cell = none ∧ cell < t.store.calls
  runs : t.task = .panicked .handler ∨
    CellsOwned t.store t.agenda ∧ RunsOnce t ∧ ∀ msg, t.task ≠ .panicked (.expect msg)

theorem OnceInvariant.step {es' : List (Effect C)} (hinv : OnceInvariant es t)
    (h : t.Step body es' t') (hcond : t.OnceRemoved es') : OnceInvariant (es ++ es') t' := by
  -- the handler of a cell runs only if the cell is full
  have hempties : ∀ cell, runsOf cell es' ≠ [] →
      (runsOf cell es').length ≤ 1 ∧ t.store.cells cell ≠ none ∧
        t'.store.cells cell = none ∧ cell < t'.store.calls := by
    intro cell hne
    cases h with
    | callOnce _ _ _ _ _ cell' _ _ _ _ hcell =>
      have hsame : cell' = cell := by
        by_contra hdiff
        exact hne (by simp [runsOf, hdiff])
      subst hsame
      rcases hinv.runs with hpan | ⟨howned, hruns, -⟩
      · cases hpan
      · have hfinds := (hruns.toCall rfl _ _ _ mem_cons_self).1
        exact ⟨by simp [runsOf], by simp [hcell], by simp, (howned.registered hfinds).1⟩
    | _ => exact absurd rfl hne
  refine ⟨fun cell => ?_, fun cell hne => ?_, ?_⟩
  · rw [runsOf, filter_append, length_append]
    by_cases hnew : runsOf cell es' = []
    · have hold := hinv.length_le cell
      rw [runsOf] at hold hnew
      rw [hnew]
      exact hold
    · obtain ⟨hle, hfull, -⟩ := hempties cell hnew
      have hold : runsOf cell es = [] := by
        by_contra hold
        exact hfull (hinv.emptied cell hold).1
      rw [runsOf] at hold hle
      rw [hold]
      simpa using hle
  · by_cases hnew : runsOf cell es' = []
    · have hold : runsOf cell es ≠ [] := by
        intro hold
        rw [runsOf] at hold hnew hne
        exact hne (by rw [filter_append, hold, hnew]; rfl)
      obtain ⟨hnone, hlt⟩ := hinv.emptied cell hold
      exact h.cells_eq_none hlt hnone
    · exact (hempties cell hnew).2.2
  · rcases hinv.runs with hpan | ⟨howned, hruns, hno⟩
    · cases h with
      | queued => exact .inl hpan
      | _ => cases hpan
    · rcases h.runsOnce hcond howned hruns with hruns' | hpan
      · refine .inr ⟨h.cellsOwned howned hruns, hruns', fun msg hmsg => ?_⟩
        cases h with
        | callTwice _ _ _ _ _ _ _ _ _ hcell =>
          exact (hruns.toCall rfl _ _ _ mem_cons_self).2.1 hcell
        | queued => exact hno msg hmsg
        | _ => cases hmsg
      · exact .inl hpan

theorem onceInvariant {world : W} (h : Execution (guarded Turn.OnceRemoved (Turn.Step body))
      ⟨.default world, .idle, [], []⟩ es t) : OnceInvariant es t := by
  have hstart : OnceInvariant [] (⟨.default world, .idle, [], []⟩ : Turn C W) := by
    refine ⟨fun cell => by simp [runsOf], fun cell hne => absurd rfl hne, .inr ⟨?_, ?_, nofun⟩⟩
    · constructor <;> simp [Turn.agenda, Store.FindsOnce]
    · exact ⟨fun ⟨_, hfind⟩ => by simp at hfind, nofun, nofun⟩
  exact h.invariant hstart fun _ hinv hstep => hinv.step hstep.1 hstep.2

theorem Refines.of_panicked {l : InnerListeners C W} {p : Panic}
    (h : Refines (l, [.panicked p]) t) : t.task = .panicked p := by
  generalize hk : (l, ([.panicked p] : Stack C W)) = s at h
  cases h with
  | panicked l' p' t h =>
    cases hk
    exact h
  | idle s bs => cases bs <;> cases (Prod.mk.inj hk).2
  | delivering _ _ _ _ _ scripts => cases scripts <;> cases (Prod.mk.inj hk).2
  | _ => cases (Prod.mk.inj hk).2

namespace Sample

/-- The code of two handlers: the first emits the given event, the second does nothing. -/
def emits (event : String) : Nat → Event → Script Nat Unit
  | 0, _ => makes [.emit (args event)]
  | _, _ => .done

/-- A `once` handler for `x`, a handler for `y`, and two emits of `x`. -/
def onceRequests : List (Request Nat) :=
  [.once "x" .any 0, .listen "y" .any 1, .emit (args "x"), .emit (args "x")]

/-- A test for `OnceRemoved`. -/
def onceRemoved (s : InnerListeners Nat Unit × Stack Nat Unit) (es : List (Effect Nat)) : Bool :=
  es.all fun
    | .issued _ (.emit args _) => (s.1.toStore.matching args none).all fun ih =>
      match ih.2.callback with
      | .once cell => (s.1.cells cell).isSome &&
          !(s.2.flatMap Frame.toCall).contains (args.eventName, ih.1) ||
          s.1.pending.any fun na => na.2 == .unlisten ih.1
      | .listen _ => true
    | _ => true

theorem onceRemoved_sound {s : InnerListeners Nat Unit × Stack Nat Unit}
    {es : List (Effect Nat)} (h : onceRemoved s es = true) : OnceRemoved s es := by
  rintro n args f hiss id cell ⟨target, hfind⟩ hdue
  have hemit := all_eq_true.mp h _ hiss
  have hmem : (id, ⟨target, .once cell⟩) ∈ s.1.toStore.matching args none :=
    mem_matching.mpr ⟨hfind, by simp [matchAnyOrFilter]⟩
  have hclosure := all_eq_true.mp hemit _ hmem
  simp only [Bool.or_eq_true, Bool.and_eq_true, Bool.not_eq_true', any_eq_true,
    beq_iff_eq] at hclosure
  rcases hclosure with ⟨hfull, hnot⟩ | ⟨⟨m, action⟩, hm, rfl⟩
  · grind
  · exact ⟨m, hm⟩

end Sample

open Sample

/-- **A `once` handler runs once.** In every run of a single thread in which, when an emit is made,
the `once` closures for its event that have run, or are going to run in the delivery under way,
have their `unlisten` in the queue: the handler passed to `once` runs at most once, and its closure
does not panic. -/
theorem once_runs_at_most_once {world : W} {es : List (Effect C)} {l : InnerListeners C W}
    {k : Stack C W}
    (h : Execution (guarded OnceRemoved (alone (Move body))) (.default world, []) es (l, k)) :
    (∀ cell, (runsOf cell es).length ≤ 1) ∧
      k ≠ [.panicked (.expect "attempted to call handler more than once")] := by
  have hstart : Refines ((.default world : InnerListeners C W), ([] : Stack C W))
      ⟨.default world, .idle, [], []⟩ := .idle (.default world) []
  obtain ⟨t, hturn, hR⟩ := exists_turn visible_onceRemoved hstart h
  have hinv := onceInvariant hturn
  refine ⟨hinv.length_le, ?_⟩
  rintro rfl
  have hpan := hR.of_panicked
  rcases hinv.runs with hh | ⟨-, -, hno⟩
  · rw [hh] at hpan
    cases hpan
  · exact hno _ hpan

/-- In the sample, a `once` handler that emits another event runs once, for two emits. -/
theorem sample_once_runs_once : ∃ es l,
    Execution (guarded OnceRemoved (alone (Move (Sample.emits "y")))) (.default (), []) es (l, []) ∧
    runsOf 0 es ≠ [] ∧ (runsOf 0 es).length ≤ 1 := by
  have hguard : ∀ {s es s'}, guarded (fun s es => onceRemoved s es)
      (alone (Move (emits "y"))) s es s' →
      guarded OnceRemoved (alone (Move (emits "y"))) s es s' :=
    fun hstep => ⟨hstep.1, onceRemoved_sound hstep.2⟩
  have hrun := (execution_run (emits "y") onceRemoved
    onceRequests).mono hguard
  have hret : (run (emits "y") onceRemoved
    onceRequests).2.1 = [] := rfl
  have hruns : runsOf 0 (run (emits "y") onceRemoved
    onceRequests).2.2 = [.called 2 0 ⟨.any, .once 0⟩] := rfl
  rw [hret] at hrun
  refine ⟨_, _, hrun, ?_, (once_runs_at_most_once hrun).1 0⟩
  rw [hruns]
  exact cons_ne_nil _ _

/-- In the sample, a `once` handler that emits its own event panics. -/
theorem sample_once_panics : ∃ es l,
    Execution (alone (Move (Sample.emits "x"))) (.default (), []) es
      (l, [.panicked (.expect "attempted to call handler more than once")]) := by
  have hrun := (execution_run (emits "x") (fun _ _ => true)
    onceRequests).mono And.left
  have hpan : (run (emits "x") (fun _ _ => true) onceRequests).2.1 =
    [.panicked (.expect "attempted to call handler more than once")] := rfl
  rw [hpan] at hrun
  exact ⟨_, _, hrun⟩

end Tauri.Events
