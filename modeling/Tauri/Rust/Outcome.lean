import Mathlib

/-!
# Outcomes of fallible, panicking and possibly diverging computations

`Outcome ε α` is the result of running a Rust function: a value, an error returned through
`Result`, a **panic**, or `outOfFuel`. The last one never stands for a behaviour of the
program: a function whose recursion the source does not bound is run with a fuel argument,
and `outOfFuel` says that this many nested calls were not enough to see its answer.

The `?` operator is `bind`, and a `for` loop over a vector that updates captured variables is
`List.foldlM` over the tuple of these variables. Three groups of rules are provided:

* **inversion** (`bind_eq_ok`, `foldlM_append_eq_ok`, `foldlM_eq_ok_iff_foldl`): what a
  successful run of a compound computation says about its parts;
* **fuel** (`Approx` and its congruences): more fuel never changes an answer;
* **termination** (`exists_foldlM_eq_ok`, `ReturnsOr`): a loop whose body returns at every
  element returns, with one of the errors of its body.
-/

namespace Rust

open List

/-- The result of running a Rust computation. -/
inductive Outcome (ε α : Type) where
  | ok (a : α)
  | err (e : ε)
  | panic (msg : String)
  | outOfFuel
  deriving DecidableEq, Repr

namespace Outcome

variable {ε α β γ σ : Type}

/-- The `?` operator: continue on a value, propagate everything else. -/
protected def bind (x : Outcome ε α) (f : α → Outcome ε β) : Outcome ε β :=
  match x with
  | ok a => f a
  | err e => err e
  | panic m => panic m
  | outOfFuel => outOfFuel

instance : Monad (Outcome ε) where
  pure := ok
  bind := Outcome.bind

instance : LawfulMonad (Outcome ε) :=
  LawfulMonad.mk' _ (fun x => by cases x <;> rfl) (fun _ _ => rfl)
    (fun x _ _ => by cases x <;> rfl)

/-- `Result::unwrap` and `Result::expect`: an error becomes a panic with the given text. -/
def unwrap (msg : String) : Outcome ε α → Outcome ε α
  | err _ => panic msg
  | x => x

/-- The value of a successful run, and `d` otherwise. -/
def getD (x : Outcome ε α) (d : α) : α :=
  match x with
  | ok a => a
  | _ => d

@[simp] theorem pure_eq (a : α) : (pure a : Outcome ε α) = ok a := rfl

@[simp] theorem ok_bind (a : α) (f : α → Outcome ε β) : (ok a >>= f) = f a := rfl

@[simp] theorem err_bind (e : ε) (f : α → Outcome ε β) : (err e >>= f) = err e := rfl

@[simp] theorem panic_bind (m : String) (f : α → Outcome ε β) : (panic m >>= f) = panic m := rfl

@[simp] theorem outOfFuel_bind (f : α → Outcome ε β) : (outOfFuel >>= f) = outOfFuel := rfl

/-! ### Inversion -/

variable {x : Outcome ε α} {f : α → Outcome ε β}

theorem bind_eq_ok {b : β} : (x >>= f) = ok b ↔ ∃ a, x = ok a ∧ f a = ok b := by cases x <;> simp

theorem unwrap_eq_ok {msg : String} {a : α} : x.unwrap msg = ok a ↔ x = ok a := by
  cases x <;> simp [unwrap]

/-- Whether a run succeeds. -/
def isOk : Outcome ε α → Bool
  | ok _ => true
  | _ => false

theorem isOk_iff : x.isOk = true ↔ ∃ a, x = ok a := by cases x <;> simp [isOk]

@[simp] theorem getD_ok (a d : α) : (ok a : Outcome ε α).getD d = a := rfl

variable {xs : List α} {out : List β} {e : ε}

/-- A loop that appends what its body yields succeeds exactly when the body does at every
element, and it yields the concatenation, in order. -/
theorem foldlM_append_eq_ok {f : α → Outcome ε (List β)} {acc : List β} :
    xs.foldlM (fun acc x => f x >>= fun ys => ok (acc ++ ys)) acc = ok out ↔
      ∃ yss, List.Forall₂ (fun x ys => f x = ok ys) xs yss ∧ out = acc ++ yss.flatten := by
  induction xs generalizing acc with
  | nil =>
    simp only [foldlM_nil, pure_eq, ok.injEq, forall₂_nil_left_iff, exists_eq_left,
      flatten_nil, append_nil]
    exact eq_comm
  | cons x xs ih =>
    simp only [foldlM_cons, bind_eq_ok, ok.injEq, ih, forall₂_cons_left_iff]
    constructor
    · rintro ⟨_, ⟨ys, hx, rfl⟩, yss, hxs, rfl⟩
      exact ⟨ys :: yss, ⟨ys, yss, hx, hxs, rfl⟩, by simp⟩
    · rintro ⟨_, ⟨ys, yss, hx, hxs, rfl⟩, rfl⟩
      exact ⟨acc ++ ys, ⟨ys, hx, rfl⟩, yss, hxs, by simp⟩

theorem mem_of_foldlM_append {f : α → Outcome ε (List β)}
    (h : xs.foldlM (fun acc x => f x >>= fun ys => ok (acc ++ ys)) [] = ok out) {y : β} :
    y ∈ out ↔ ∃ x ∈ xs, ∃ ys, f x = ok ys ∧ y ∈ ys := by
  obtain ⟨yss, hyss, rfl⟩ := foldlM_append_eq_ok.mp h
  rw [nil_append, mem_flatten]
  induction hyss with
  | nil => simp
  | @cons x ys xs yss hx _ ih =>
    have hrest := ih (foldlM_append_eq_ok.mpr ⟨yss, ‹_›, rfl⟩)
    simp only [mem_cons, exists_eq_or_imp, hx, ok.injEq, exists_eq_left', hrest]

theorem mem_of_foldlM_push {acc : List β}
    (h : xs.foldlM (fun acc x => f x >>= fun y => ok (acc ++ [y])) acc = ok out) {y : β} :
    y ∈ out ↔ y ∈ acc ∨ ∃ x ∈ xs, f x = ok y := by
  induction xs generalizing acc with
  | nil =>
    cases h
    simp
  | cons x xs ih =>
    simp only [foldlM_cons, bind_eq_ok, ok.injEq] at h
    obtain ⟨_, ⟨z, hz, rfl⟩, hrest⟩ := h
    rw [ih hrest, mem_append, mem_singleton, or_assoc, @eq_comm _ y z]
    simp only [mem_cons, exists_eq_or_imp, hz, ok.injEq]

/-- A loop whose body, where it succeeds, only checks its element and updates the state by a
total function. -/
theorem foldlM_eq_ok_iff_foldl {f : σ → α → Outcome ε σ} {check : α → Prop} {g : σ → α → σ}
    (hf : ∀ s x s', f s x = ok s' ↔ check x ∧ s' = g s x) {s s' : σ} :
    xs.foldlM f s = ok s' ↔ (∀ x ∈ xs, check x) ∧ s' = xs.foldl g s := by
  induction xs generalizing s with
  | nil =>
    simp only [foldlM_nil, pure_eq, ok.injEq, not_mem_nil, false_imp_iff, implies_true,
      foldl_nil, true_and]
    exact eq_comm
  | cons x xs ih =>
    simp only [foldlM_cons, bind_eq_ok, hf, ih, forall_mem_cons, foldl_cons]
    constructor
    · rintro ⟨_, ⟨hx, rfl⟩, hxs, rfl⟩
      exact ⟨⟨hx, hxs⟩, rfl⟩
    · rintro ⟨⟨hx, hxs⟩, rfl⟩
      exact ⟨_, ⟨hx, rfl⟩, hxs, rfl⟩

/-! ### Computations that return no error -/

theorem unwrap_ne_err {msg : String} : x.unwrap msg ≠ err e := by cases x <;> simp [unwrap]

theorem bind_ne_err (hx : x ≠ err e) (hf : ∀ a, f a ≠ err e) : (x >>= f) ≠ err e := by
  cases x with
  | ok a => exact hf a
  | err e' => simpa using hx
  | panic m | outOfFuel => simp

theorem foldlM_ne_err {f : σ → α → Outcome ε σ} (hf : ∀ s x, f s x ≠ err e) (s : σ) :
    xs.foldlM f s ≠ err e := by
  induction xs generalizing s with
  | nil => simp
  | cons x xs ih =>
    rw [foldlM_cons]
    exact bind_ne_err (hf s x) ih

/-! ### Fuel -/

/-- `Approx x y`: the answer `x`, if it is one, is also the answer `y`. -/
def Approx (x y : Outcome ε α) : Prop := x = outOfFuel ∨ x = y

@[refl, simp] theorem Approx.refl (x : Outcome ε α) : Approx x x := .inr rfl

variable {y : Outcome ε α}

theorem Approx.eq_ok {a : α} (h : Approx x y) (hx : x = ok a) : y = ok a := by
  rcases h with rfl | rfl
  · cases hx
  · exact hx

theorem Approx.eq_of_ne (h : Approx x y) (hx : x ≠ outOfFuel) : y = x := by
  rcases h with rfl | rfl
  · exact absurd rfl hx
  · rfl

theorem Approx.bind {g : α → Outcome ε β} (hxy : Approx x y) (hfg : ∀ a, Approx (f a) (g a)) :
    Approx (x >>= f) (y >>= g) := by
  rcases hxy with rfl | rfl
  · exact .inl rfl
  · cases x with
    | ok a => exact hfg a
    | err e | panic m | outOfFuel => exact .refl _

theorem Approx.foldlM {f g : σ → α → Outcome ε σ} (hfg : ∀ s x, Approx (f s x) (g s x)) (s : σ) :
    Approx (xs.foldlM f s) (xs.foldlM g s) := by
  induction xs generalizing s with
  | nil => exact .refl _
  | cons x xs ih =>
    simp only [foldlM_cons]
    exact (hfg s x).bind ih

/-! ### Termination -/

theorem exists_bind_eq_ok (hx : ∃ a, x = ok a) (hf : ∀ a, ∃ b, f a = ok b) :
    ∃ b, (x >>= f) = ok b := by
  obtain ⟨a, rfl⟩ := hx
  exact hf a

theorem exists_foldlM_eq_ok {f : σ → α → Outcome ε σ} (hf : ∀ x ∈ xs, ∀ s, ∃ s', f s x = ok s')
    (s : σ) : ∃ s', xs.foldlM f s = ok s' := by
  induction xs generalizing s with
  | nil => exact ⟨s, rfl⟩
  | cons x xs ih =>
    rw [foldlM_cons]
    exact exists_bind_eq_ok (hf x mem_cons_self s)
      fun t => ih (fun y hy => hf y (mem_cons_of_mem x hy)) t

/-- A run that returns: a value, or one of these errors. -/
def ReturnsOr (Q : ε → Prop) (x : Outcome ε α) : Prop := (∃ a, x = ok a) ∨ ∃ e, x = err e ∧ Q e

theorem ReturnsOr.bind {Q : ε → Prop} (hx : ReturnsOr Q x) (hf : ∀ a, ReturnsOr Q (f a)) :
    ReturnsOr Q (x >>= f) := by
  rcases hx with ⟨a, rfl⟩ | ⟨e, rfl, he⟩
  · exact hf a
  · exact .inr ⟨e, rfl, he⟩

theorem ReturnsOr.foldlM {Q : ε → Prop} {f : σ → α → Outcome ε σ}
    (hf : ∀ x ∈ xs, ∀ s, ReturnsOr Q (f s x)) (s : σ) : ReturnsOr Q (xs.foldlM f s) := by
  induction xs generalizing s with
  | nil => exact .inl ⟨s, rfl⟩
  | cons x xs ih =>
    rw [foldlM_cons]
    exact (hf x mem_cons_self s).bind (ih fun y hy => hf y (mem_cons_of_mem _ hy))

theorem foldlM_search_true (g : α → Outcome ε Bool) (xs : List α) :
    xs.foldlM (fun found x => if found then ok true else g x) true = ok true := by
  induction xs with
  | nil => rfl
  | cons x xs ih => rw [foldlM_cons, if_pos rfl, ok_bind, ih]

end Outcome

/-! ### Functions that return a `Result` -/

section Result

variable {ε ε' α β : Type}

theorem except_bind_eq_ok {x : Except ε α} {f : α → Except ε β} {b : β} :
    (x >>= f) = .ok b ↔ ∃ a, x = .ok a ∧ f a = .ok b := by
  cases x <;> simp [bind, Except.bind]

theorem except_forM_eq_ok {f : α → Except ε Unit} {xs : List α} :
    forM xs f = .ok () ↔ ∀ x ∈ xs, f x = .ok () := by
  induction xs with
  | nil => simp [pure, Except.pure]
  | cons x xs ih =>
    rw [forM_cons, except_bind_eq_ok, forall_mem_cons, ← ih]
    exact ⟨fun ⟨(), hx, hxs⟩ => ⟨hx, hxs⟩, fun ⟨hx, hxs⟩ => ⟨(), hx, hxs⟩⟩

theorem except_mapError_eq_ok {x : Except ε α} {f : ε → ε'} {a : α} :
    x.mapError f = .ok a ↔ x = .ok a := by
  cases x <;> simp [Except.mapError]

end Result

end Rust
