import Mathlib

/-!
# Code that takes several locks

`Locking κ σ α` is code of one thread that reads and changes a state `σ`, and takes locks from `κ`
around parts of it. The locks are not reentrant: taking one that the thread holds blocks it forever,
and then the code has no result. Code of other threads is not part of it, and neither are panics; a
lock that another thread holds is given back.

`Does held c g x` says that the code `x`, run by a thread that holds the locks `held`, returns
exactly in the states with `c`, and then changes the state by `g`. It has a rule for each way to
build code, so that whether a program returns is a statement without locks.
-/

namespace Rust

/-- Code of a thread, from the locks that the thread holds. -/
def Locking (κ σ α : Type) : Type := (κ → Bool) → σ → Option (α × σ)

namespace Locking

variable {κ σ α β ι : Type}

protected def pure (a : α) : Locking κ σ α := fun _ s => some (a, s)

protected def bind (x : Locking κ σ α) (f : α → Locking κ σ β) : Locking κ σ β := fun held s =>
  (x held s).bind fun r => f r.1 held r.2

instance : Monad (Locking κ σ) where
  pure := Locking.pure
  bind := Locking.bind

/-- Code that changes the state. -/
def modify (f : σ → σ) : Locking κ σ Unit := fun _ s => some ((), f s)

/-- Code that looks at the state and goes on. -/
def read (f : σ → Locking κ σ α) : Locking κ σ α := fun held s => f s held s

/-- `let guard = lock.lock().unwrap();`, with the code up to the drop of the guard. -/
def withLock [DecidableEq κ] (k : κ) (body : Locking κ σ α) : Locking κ σ α := fun held s =>
  if held k then none else body (Function.update held k true) s

/-- The code returns in the states with `c`, and then changes the state by `g`. -/
def Does (held : κ → Bool) (c : σ → Prop) (g : σ → σ) (x : Locking κ σ Unit) : Prop :=
  ∀ s s', x held s = some ((), s') ↔ c s ∧ s' = g s

namespace Does

variable {held : κ → Bool} {c c' : σ → Prop} {g g' : σ → σ} {x y : Locking κ σ Unit}

theorem congr (hx : Does held c g x) (hc : ∀ s, c s ↔ c' s) (hg : ∀ s, c s → g s = g' s) :
    Does held c' g' x := by
  intro s s'
  rw [hx s s', ← hc s]
  exact and_congr_right fun hs => by rw [hg s hs]

protected theorem pure : Does held (fun _ => True) id (pure () : Locking κ σ Unit) := by
  intro s s'
  simp [pure, Locking.pure, eq_comm]

protected theorem modify (f : σ → σ) : Does held (fun _ => True) f (modify f) := by
  intro s s'
  simp [Locking.modify, eq_comm]

protected theorem bind (hx : Does held c g x) (hy : Does held c' g' y) :
    Does held (fun s => c s ∧ c' (g s)) (fun s => g' (g s)) (x >>= fun _ => y) := by
  intro s s'
  change ((x held s).bind fun r => y held r.2) = _ ↔ _
  rw [Option.bind_eq_some_iff]
  constructor
  · rintro ⟨⟨⟨⟩, s₁⟩, hs₁, hs'⟩
    obtain ⟨hc, rfl⟩ := (hx s s₁).mp hs₁
    obtain ⟨hc', rfl⟩ := (hy _ s').mp hs'
    exact ⟨⟨hc, hc'⟩, rfl⟩
  · rintro ⟨⟨hc, hc'⟩, rfl⟩
    exact ⟨((), g s), (hx s _).mpr ⟨hc, rfl⟩, (hy _ _).mpr ⟨hc', rfl⟩⟩

theorem bind_of_false (hx : Does held (fun _ => False) g x) (f : Unit → Locking κ σ Unit) :
    Does held (fun _ => False) id (x >>= f) := by
  intro s s'
  have hnone : x held s = none := Option.eq_none_iff_forall_ne_some.mpr fun r hr =>
    ((hx s r.2).mp hr).1
  change (x held s).bind _ = _ ↔ _
  simp [hnone]

protected theorem read {f : σ → Locking κ σ Unit} {c : σ → σ → Prop} {g : σ → σ → σ}
    (hf : ∀ v, Does held (c v) (g v) (f v)) :
    Does held (fun s => c s s) (fun s => g s s) (read f) :=
  fun s s' => hf s s s'

theorem read_ite {p : σ → Prop} [DecidablePred p] (hx : Does held c g x) (hy : Does held c' g' y) :
    Does held (fun s => if p s then c s else c' s) (fun s => if p s then g s else g' s)
      (read fun s => if p s then x else y) := by
  intro s s'
  simp only [Locking.read]
  split_ifs
  · exact hx s s'
  · exact hy s s'

theorem forM {f : ι → Locking κ σ Unit} {c : ι → σ → Prop} {g : ι → σ → σ}
    (hf : ∀ i, Does held (c i) (g i) (f i)) (hg : ∀ i j s, c j (g i s) ↔ c j s) (l : List ι) :
    Does held (fun s => ∀ i ∈ l, c i s) (fun s => l.foldl (fun s i => g i s) s) (l.forM f) := by
  induction l with
  | nil => exact Does.pure.congr (by simp) fun _ _ => rfl
  | cons i l ih => exact ((hf i).bind ih).congr (by simp [hg]) fun _ _ => rfl

variable [DecidableEq κ]

theorem withLock_held {k : κ} (hk : held k = true) (body : Locking κ σ Unit) :
    Does held (fun _ => False) id (withLock k body) := by
  intro s s'
  simp [withLock, hk]

theorem withLock_free {k : κ} (hk : held k = false)
    (hbody : Does (Function.update held k true) c g x) : Does held c g (withLock k x) := by
  intro s s'
  simp only [withLock, hk]
  exact hbody s s'

end Does

end Locking

end Rust
