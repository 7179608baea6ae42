import Mathlib

/-!
# A mutex that is not reentrant

`Act σ α` is a piece of code that reads and changes a state `σ`, which has a mutex somewhere in it,
and ends by returning or with a panic; or it never ends, because it locks the mutex while it holds
it. `withLock` is the scope of a guard from `lock().unwrap()`: a panic inside **poisons** the mutex,
and `unwrap` panics on one that is poisoned.

`Computes lock x g` compares a piece of code, run with the mutex in the state `lock`, with a partial
function on the rest of the state: the code returns exactly where the function has a value, and
leaves the mutex as it was. It has a rule for each way to build code, so that whether a program
returns is a computation without locks.
-/

namespace Rust

inductive Lock where
  | free
  | held
  | poisoned
  deriving DecidableEq, Repr

/-- A state with a mutex. -/
structure Locked (σ : Type) where
  lock : Lock
  value : σ

/-- How a piece of code ends. -/
inductive Ending (σ α : Type) where
  | returned (s : Locked σ) (a : α)
  | panicked (s : Locked σ)
  /-- It waits forever for a lock that it holds. -/
  | blocked
  /-- No behaviour: calls were nested deeper than they are followed. -/
  | outOfFuel

def Act (σ α : Type) : Type := Locked σ → Ending σ α

namespace Act

variable {σ α β : Type}

protected def pure (a : α) : Act σ α := fun s => .returned s a

protected def bind (x : Act σ α) (f : α → Act σ β) : Act σ β := fun s =>
  match x s with
  | .returned s a => f a s
  | .panicked s => .panicked s
  | .blocked => .blocked
  | .outOfFuel => .outOfFuel

instance : Monad (Act σ) where
  pure := Act.pure
  bind := Act.bind

/-- Code that only changes the state and answers. -/
def modifyGet (f : σ → α × σ) : Act σ α := fun s => .returned ⟨s.lock, (f s.value).2⟩ (f s.value).1

def modify (f : σ → σ) : Act σ Unit := modifyGet fun s => ((), f s)

def panic : Act σ α := .panicked

def outOfFuel : Act σ α := fun _ => .outOfFuel

/-- `let guard = mutex.lock().unwrap();`, with the code up to the drop of the guard. -/
def withLock (body : Act σ α) : Act σ α := fun s =>
  match s.lock with
  | .held => .blocked
  | .poisoned => .panicked s
  | .free =>
    match body { s with lock := .held } with
    | .returned s a => .returned { s with lock := .free } a
    | .panicked s => .panicked { s with lock := .poisoned }
    | .blocked => .blocked
    | .outOfFuel => .outOfFuel

theorem bind_eq (x : Act σ α) (f : α → Act σ β) : x >>= f = x.bind f := rfl

theorem bind_eq_returned {x : Act σ α} {f : α → Act σ β} {s s' : Locked σ} {b : β} :
    (x >>= f) s = .returned s' b ↔ ∃ s₁ a, x s = .returned s₁ a ∧ f a s₁ = .returned s' b := by
  rw [bind_eq, Act.bind]
  cases x s <;> simp

theorem forM_append_eq_returned {ι : Type} {f : ι → Act σ Unit} {l l' : List ι}
    {s s' : Locked σ} :
    (l ++ l').forM f s = .returned s' () ↔
      ∃ s₁, l.forM f s = .returned s₁ () ∧ l'.forM f s₁ = .returned s' () := by
  induction l generalizing s with
  | nil =>
    constructor
    · intro h
      exact ⟨s, rfl, h⟩
    · rintro ⟨_, heq, h⟩
      cases heq
      exact h
  | cons x l ih =>
    rw [List.cons_append, List.forM, bind_eq_returned, List.forM]
    constructor
    · rintro ⟨s₁, a, hx, h⟩
      obtain ⟨s₂, hl, hl'⟩ := ih.mp h
      exact ⟨s₂, bind_eq_returned.mpr ⟨s₁, a, hx, hl⟩, hl'⟩
    · rintro ⟨s₂, h, hl'⟩
      obtain ⟨s₁, a, hx, hl⟩ := bind_eq_returned.mp h
      exact ⟨s₁, a, hx, ih.mpr ⟨s₂, hl, hl'⟩⟩

/-! ### Code as a partial function -/

theorem stateT_bind_eq_some {g : StateT σ Option α} {h : α → StateT σ Option β} {v v' : σ} {b : β} :
    (g >>= h) v = some (b, v') ↔ ∃ a v₁, g v = some (a, v₁) ∧ h a v₁ = some (b, v') := by
  rw [show (g >>= h) v = (g v).bind fun p => h p.1 p.2 from rfl, Option.bind_eq_some_iff]
  exact Prod.exists

/-- With the mutex in the state `lock`, the code returns where `g` has a value. -/
def Computes (lock : Lock) (x : Act σ α) (g : StateT σ Option α) : Prop :=
  ∀ v s' a, x ⟨lock, v⟩ = .returned s' a ↔ ∃ v', g v = some (a, v') ∧ s' = ⟨lock, v'⟩

namespace Computes

variable {lock : Lock} {x : Act σ α} {g : StateT σ Option α}

protected theorem congr {g' : StateT σ Option α} (hx : Computes lock x g) (h : g = g') :
    Computes lock x g' := h ▸ hx

protected theorem pure (a : α) : Computes lock (pure a : Act σ α) (pure a) := by
  intro v s' b
  constructor
  · rintro ⟨⟩
    exact ⟨v, rfl, rfl⟩
  · rintro ⟨v', ⟨⟩, rfl⟩
    rfl

protected theorem bind {f : α → Act σ β} {h : α → StateT σ Option β} (hx : Computes lock x g)
    (hf : ∀ a, Computes lock (f a) (h a)) : Computes lock (x >>= f) (g >>= h) := by
  intro v s' b
  rw [bind_eq_returned]
  constructor
  · rintro ⟨s₁, a, hret, hrest⟩
    obtain ⟨v₁, hg, rfl⟩ := (hx v s₁ a).mp hret
    obtain ⟨v', hh, rfl⟩ := (hf a v₁ s' b).mp hrest
    exact ⟨v', stateT_bind_eq_some.mpr ⟨a, v₁, hg, hh⟩, rfl⟩
  · rintro ⟨v', hgh, rfl⟩
    obtain ⟨a, v₁, hg, hh⟩ := stateT_bind_eq_some.mp hgh
    exact ⟨⟨lock, v₁⟩, a, (hx v _ a).mpr ⟨v₁, hg, rfl⟩, (hf a v₁ _ b).mpr ⟨v', hh, rfl⟩⟩

protected theorem modifyGet (f : σ → α × σ) :
    Computes lock (modifyGet f) (fun v => some (f v)) := by
  intro v s' a
  simp only [Act.modifyGet, Ending.returned.injEq, Option.some.injEq, Prod.ext_iff]
  constructor
  · rintro ⟨rfl, rfl⟩
    exact ⟨_, ⟨rfl, rfl⟩, rfl⟩
  · rintro ⟨v', ⟨rfl, rfl⟩, rfl⟩
    exact ⟨rfl, rfl⟩

protected theorem modify (f : σ → σ) : Computes lock (modify f) fun v => some ((), f v) :=
  .modifyGet _

protected theorem panic : Computes lock (panic : Act σ α) fun _ => none := by
  intro v s' a
  simp [Act.panic]

theorem bind_of_none (hx : Computes lock x fun _ => none) (f : α → Act σ β) :
    Computes lock (x >>= f) fun _ => none := by
  intro v s' b
  refine iff_of_false (fun h => ?_) (by simp)
  obtain ⟨s₁, a, hret, -⟩ := bind_eq_returned.mp h
  obtain ⟨v', hnone, -⟩ := (hx v s₁ a).mp hret
  cases hnone

theorem withLock_held (body : Act σ α) : Computes .held (withLock body) fun _ => none := by
  intro v s' a
  simp [withLock]

theorem withLock_free {body : Act σ α} (hbody : Computes .held body g) :
    Computes .free (withLock body) g := by
  intro v s' a
  have hret := hbody v
  simp only [withLock]
  cases hrun : body ⟨.held, v⟩ with
  | returned => grind
  | panicked | blocked | outOfFuel =>
    refine iff_of_false (by simp) ?_
    rintro ⟨v', hg, -⟩
    have hrun' := (hret _ a).mpr ⟨v', hg, rfl⟩
    rw [hrun] at hrun'
    cases hrun'

theorem forM {ι : Type} {f : ι → Act σ Unit} {h : ι → StateT σ Option Unit}
    (hf : ∀ i, Computes lock (f i) (h i)) (l : List ι) : Computes lock (l.forM f) (l.forM h) := by
  induction l with
  | nil => exact .pure ()
  | cons i l ih => exact (hf i).bind fun _ => ih

end Computes

end Act

end Rust
