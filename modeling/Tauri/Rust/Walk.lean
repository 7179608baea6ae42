import Tauri.Rust.Outcome

/-!
# Depth-first walks

A function that follows references without remembering which it has followed is a depth-first
walk: it looks at the members of a node from left to right, and a member is passed over, **stops
the whole walk** with a verdict, or leads to another node that is walked before the next member.
Nothing is assumed about the graph, so a walk may go on for ever; `Graph.walk` is run with a
bound on the nesting of nodes.

`HasStop`, `LooksAt`, `Enters` and `Visits` describe a walk without fuel. A member leads to a
stop; a member is looked at, which means that no member before it leads to one; a node is entered
from another; a node is visited.

## Main results

* `exists_walk_returns_iff`: a walk returns exactly when its node is accessible for `Enters`, so
  that no infinite chain of nodes is entered.
* `not_hasStop_of_walk_eq_ok`, `hasStop_of_walk_eq_err`: it returns without a verdict exactly when
  no stop can be reached.
* `exists_visits_of_walk_eq_err`, `walk_eq_err_unique`: the verdict is the one of the stop it
  looks at, and there is only one.
-/

namespace Rust

open List

/-- What a member of a node means to a walk. -/
inductive Look (ν ω : Type) where
  | pass
  | stop (verdict : ω)
  | enter (node : ν)

/-- The graph that a walk follows. -/
structure Graph (ν μ ω : Type) where
  members : ν → List μ
  look : ν → μ → Look ν ω

namespace Graph

variable {ν μ ω : Type}

/-- What a walk does at a member, given how nodes are walked. -/
def follow (walk : ν → Outcome ω Unit) : Look ν ω → Outcome ω Unit
  | .pass => .ok ()
  | .stop verdict => .err verdict
  | .enter node => walk node

variable (g : Graph ν μ ω)

/-- Looking at some members of a node, from left to right. -/
def walkMembers (walk : ν → Outcome ω Unit) (node : ν) : List μ → Outcome ω Unit
  | [] => .ok ()
  | m :: ms => follow walk (g.look node m) >>= fun _ => walkMembers walk node ms

/-- The walk of a node, with at most `fuel` nested nodes. -/
def walk : Nat → ν → Outcome ω Unit
  | 0, _ => .outOfFuel
  | fuel + 1, node => g.walkMembers (walk fuel) node (g.members node)

/-- A stop can be reached from the member. -/
inductive HasStop : ν → μ → Prop
  | here {node : ν} {m : μ} {verdict : ω} (hlook : g.look node m = .stop verdict) : HasStop node m
  | enter {node node' : ν} {m m' : μ} (hlook : g.look node m = .enter node')
      (hmem : m' ∈ g.members node') (hstop : HasStop node' m') : HasStop node m

/-- A member of the node that no member leading to a stop comes before. -/
def LooksAt (node : ν) (m : μ) : Prop :=
  ∃ before after, g.members node = before ++ m :: after ∧ ∀ b ∈ before, ¬ g.HasStop node b

/-- Walking `node` comes to walk `node'`. -/
def Enters (node' node : ν) : Prop := ∃ m, g.LooksAt node m ∧ g.look node m = .enter node'

/-- `node` is walked when `root` is. -/
def Visits (node root : ν) : Prop := Relation.ReflTransGen g.Enters node root

/-! ### One node -/

section Members

variable {g} {walk : ν → Outcome ω Unit} {node : ν}

variable {ms : List μ}

theorem walkMembers_eq_ok :
    g.walkMembers walk node ms = .ok () ↔ ∀ m ∈ ms, follow walk (g.look node m) = .ok () := by
  induction ms with
  | nil => simp [walkMembers]
  | cons m ms ih =>
    rw [walkMembers, Outcome.bind_eq_ok, forall_mem_cons, ih]
    exact ⟨fun ⟨_, hm, hms⟩ => ⟨hm, hms⟩, fun ⟨hm, hms⟩ => ⟨(), hm, hms⟩⟩

theorem walkMembers_eq_err {verdict : ω} (h : g.walkMembers walk node ms = .err verdict) :
    ∃ before m after,
      ms = before ++ m :: after ∧ (∀ b ∈ before, follow walk (g.look node b) = .ok ()) ∧
        follow walk (g.look node m) = .err verdict := by
  induction ms with
  | nil => cases h
  | cons m ms ih =>
    rw [walkMembers] at h
    cases hm : follow walk (g.look node m) with
    | ok =>
      rw [hm, Outcome.ok_bind] at h
      obtain ⟨before, m', after, rfl, hbef, hm'⟩ := ih h
      exact ⟨m :: before, m', after, rfl, forall_mem_cons.mpr ⟨hm, hbef⟩, hm'⟩
    | err e =>
      rw [hm] at h
      cases h
      exact ⟨[], m, ms, rfl, fun b hb => absurd hb not_mem_nil, hm⟩
    | panic msg | outOfFuel =>
      rw [hm] at h
      cases h

theorem walkMembers_ne_panic (hwalk : ∀ node' msg, walk node' ≠ .panic msg) {msg : String} :
    g.walkMembers walk node ms ≠ .panic msg := by
  induction ms with
  | nil => simp [walkMembers]
  | cons m ms ih =>
    rw [walkMembers]
    cases hlook : g.look node m with
    | pass => exact ih
    | stop => simp [follow]
    | enter node' =>
      rw [follow]
      cases hnode : walk node' with
      | ok => exact ih
      | err e | outOfFuel => simp
      | panic msg' => exact absurd hnode (hwalk node' msg')

end Members

variable {g}

variable {fuel : Nat} {node root : ν} {m : μ} {verdict : ω}

theorem walk_ne_panic {msg : String} : g.walk fuel node ≠ .panic msg := by
  induction fuel generalizing node msg with
  | zero => simp [walk]
  | succ fuel ih => exact walkMembers_ne_panic fun _ _ => ih

/-! ### Fuel -/

theorem approx_follow {f f' : ν → Outcome ω Unit} (h : ∀ node, Outcome.Approx (f node) (f' node))
    (look : Look ν ω) : Outcome.Approx (follow f look) (follow f' look) := by
  cases look with
  | pass | stop => exact .refl _
  | enter node => exact h node

theorem approx_walkMembers {f f' : ν → Outcome ω Unit}
    (h : ∀ node, Outcome.Approx (f node) (f' node)) (node : ν) (ms : List μ) :
    Outcome.Approx (g.walkMembers f node ms) (g.walkMembers f' node ms) := by
  induction ms with
  | nil => exact .refl _
  | cons m ms ih => exact (approx_follow h _).bind fun _ => ih

theorem walk_mono {fuel' : Nat} (hle : fuel ≤ fuel') (node : ν) :
    Outcome.Approx (g.walk fuel node) (g.walk fuel' node) := by
  induction fuel generalizing fuel' node with
  | zero => exact .inl rfl
  | succ fuel ih =>
    obtain ⟨fuel', rfl⟩ : ∃ k, fuel' = k + 1 := ⟨fuel' - 1, by omega⟩
    exact approx_walkMembers (fun node' => ih (by omega) node') node _

/-! ### Stops -/

/-- **A walk without a verdict passed every stop by**: none can be reached. -/
theorem not_hasStop_of_walk_eq_ok (h : g.walk fuel node = .ok ()) (hmem : m ∈ g.members node) :
    ¬ g.HasStop node m := by
  induction fuel generalizing node m with
  | zero => cases h
  | succ fuel ih =>
    have hm := walkMembers_eq_ok.mp h m hmem
    intro hstop
    cases hstop with
    | here hlook =>
      rw [hlook] at hm
      cases hm
    | enter hlook hmem' hstop' =>
      rw [hlook] at hm
      exact ih hm hmem' hstop'

theorem not_hasStop_of_follow_eq_ok (h : follow (g.walk fuel) (g.look node m) = .ok ()) :
    ¬ g.HasStop node m := by
  intro hstop
  cases hstop with
  | here hlook =>
    rw [hlook] at h
    cases h
  | enter hlook hmem hstop =>
    rw [hlook] at h
    exact not_hasStop_of_walk_eq_ok h hmem hstop

/-- **A verdict comes from a stop that the walk looks at.** -/
theorem exists_visits_of_walk_eq_err (h : g.walk fuel root = .err verdict) : ∃ node m,
      g.Visits node root ∧ g.LooksAt node m ∧ g.look node m = .stop verdict := by
  induction fuel generalizing root with
  | zero => cases h
  | succ fuel ih =>
    obtain ⟨before, m, after, hmems, hbef, hm⟩ := walkMembers_eq_err h
    have hlooks : g.LooksAt root m :=
      ⟨before, after, hmems, fun b hb => not_hasStop_of_follow_eq_ok (hbef b hb)⟩
    cases hlook : g.look root m with
    | pass =>
      rw [hlook] at hm
      cases hm
    | stop v =>
      rw [hlook] at hm
      cases hm
      exact ⟨root, m, .refl, hlooks, hlook⟩
    | enter =>
      rw [hlook] at hm
      obtain ⟨node, m', hvisits, hlooks', hstop⟩ := ih hm
      exact ⟨node, m', hvisits.tail ⟨m, hlooks, hlook⟩, hlooks', hstop⟩

theorem LooksAt.mem (h : g.LooksAt node m) : m ∈ g.members node := by
  obtain ⟨before, after, hmems, -⟩ := h
  rw [hmems]
  exact mem_append_right _ mem_cons_self

theorem Visits.exists_hasStop (h : g.Visits node root) (hmem : m ∈ g.members node)
    (hstop : g.HasStop node m) : ∃ m' ∈ g.members root, g.HasStop root m' := by
  induction h with
  | refl => exact ⟨m, hmem, hstop⟩
  | tail _ henters ih =>
    obtain ⟨m', hmem', hstop'⟩ := ih
    obtain ⟨m'', hlooks, hlook⟩ := henters
    exact ⟨m'', hlooks.mem, .enter hlook hmem' hstop'⟩

theorem hasStop_of_walk_eq_err (h : g.walk fuel node = .err verdict) :
    ∃ m ∈ g.members node, g.HasStop node m := by
  obtain ⟨node', m, hvisits, hlooks, hlook⟩ := exists_visits_of_walk_eq_err h
  exact Visits.exists_hasStop hvisits hlooks.mem (.here hlook)

theorem hasStop_of_follow_eq_err (h : follow (g.walk fuel) (g.look node m) = .err verdict) :
    g.HasStop node m := by
  cases hlook : g.look node m with
  | pass =>
    rw [hlook] at h
    cases h
  | stop v => exact .here hlook
  | enter =>
    rw [hlook] at h
    obtain ⟨m', hmem, hstop⟩ := hasStop_of_walk_eq_err h
    exact .enter hlook hmem hstop

/-! ### Where a walk is -/

theorem cut_cases {before after before' after' : List μ} {m' : μ}
    (h : before ++ m :: after = before' ++ m' :: after') : m' ∈ before ∨ m ∈ before' ∨ m = m' := by
  induction before generalizing before' with
  | nil =>
    cases before' with
    | nil => exact .inr (.inr (cons.inj h).1)
    | cons b' =>
      have hb : m = b' := (cons.inj h).1
      exact .inr (.inl (hb ▸ mem_cons_self))
  | cons b =>
    cases before' with
    | nil =>
      have hb : b = m' := (cons.inj h).1
      exact .inl (hb ▸ mem_cons_self)
    | cons => grind

/-- At a member it looks at, a walk that returns goes on as the member says, or returns at it. -/
theorem LooksAt.follow (h : g.LooksAt node m) (hrets : g.walk (fuel + 1) node ≠ .outOfFuel) :
    Graph.follow (g.walk fuel) (g.look node m) = .ok () ∨
      ∃ verdict, Graph.follow (g.walk fuel) (g.look node m) = .err verdict ∧
        g.walk (fuel + 1) node = .err verdict := by
  obtain ⟨before, after, hmems, hbef⟩ := h
  cases hwalk : g.walk (fuel + 1) node with
  | ok =>
    refine .inl (walkMembers_eq_ok.mp hwalk m ?_)
    rw [hmems]
    exact mem_append_right _ mem_cons_self
  | err verdict =>
    obtain ⟨before', m', after', hmembers', hbef', hm'⟩ := walkMembers_eq_err hwalk
    rcases cut_cases (hmems.symm.trans hmembers') with hmem | hmem | rfl
    · -- the walk does not stop at a member before `m`
      exact absurd (hasStop_of_follow_eq_err hm') (hbef m' hmem)
    · exact .inl (hbef' m hmem)
    · exact .inr ⟨verdict, hm', rfl⟩
  | panic msg => exact absurd hwalk walk_ne_panic
  | outOfFuel => exact absurd hwalk hrets

/-- **There is one verdict**: a stop that the walk looks at is where it returns. -/
theorem walk_eq_err_unique {verdict' : ω} (hvisits : g.Visits node root)
    (hlooks : g.LooksAt node m) (hlook : g.look node m = .stop verdict)
    (h : g.walk fuel root = .err verdict') : verdict' = verdict := by
  induction hvisits generalizing fuel with
  | refl =>
    cases fuel with
    | zero => cases h
    | succ fuel =>
      have hrets : g.walk (fuel + 1) node ≠ .outOfFuel := by simp [h]
      rcases hlooks.follow hrets with hok | ⟨v, herr, hwalk⟩
      · rw [hlook] at hok
        cases hok
      · rw [hlook] at herr
        cases herr
        exact Outcome.err.inj (h.symm.trans hwalk)
  | @tail node' root hvisits henters ih =>
    obtain ⟨m', hlooks', hlook'⟩ := henters
    cases fuel with
    | zero => cases h
    | succ fuel =>
      have hrets : g.walk (fuel + 1) root ≠ .outOfFuel := by simp [h]
      rcases hlooks'.follow hrets with hok | ⟨v, herr, hwalk⟩
      · -- the node that is entered has a stop, so its walk returns a verdict
        rw [hlook'] at hok
        obtain ⟨m'', hmem, hstop⟩ := Visits.exists_hasStop hvisits hlooks.mem (.here hlook)
        exact absurd hstop (not_hasStop_of_walk_eq_ok hok hmem)
      · rw [hlook', ← Outcome.err.inj (h.symm.trans hwalk)] at herr
        exact ih herr

/-! ### Termination -/

/-- **A walk that returns entered no infinite chain of nodes.** -/
theorem acc_of_walk_returns (h : g.walk fuel node ≠ .outOfFuel) : Acc g.Enters node := by
  induction fuel generalizing node with
  | zero => exact absurd rfl h
  | succ fuel ih =>
    refine .intro node fun node' henters => ?_
    obtain ⟨m, hlooks, hlook⟩ := henters
    rcases hlooks.follow h with hok | ⟨v, herr, -⟩
    · rw [hlook] at hok
      exact ih (by rw [show g.walk fuel node' = .ok () from hok]; simp)
    · rw [hlook] at herr
      exact ih (by rw [show g.walk fuel node' = .err v from herr]; simp)

/-- The members after some that lead to no stop are walked, when every node that is entered is. -/
private theorem exists_walkMembers_returns
    (hnodes : ∀ node', g.Enters node' node → ∃ fuel, g.walk fuel node' ≠ .outOfFuel)
    {before ms : List μ} (hmems : g.members node = before ++ ms)
    (hbef : ∀ b ∈ before, ¬ g.HasStop node b) :
    ∃ fuel, g.walkMembers (g.walk fuel) node ms ≠ .outOfFuel := by
  induction ms generalizing before with
  | nil => exact ⟨0, by simp [walkMembers]⟩
  | cons m ms ih =>
    have hlooks : g.LooksAt node m := ⟨before, ms, hmems, hbef⟩
    -- once the walk is past `m`, the rest is the induction hypothesis
    have hrest : (∃ fuel, follow (g.walk fuel) (g.look node m) = .ok ()) →
        ∃ fuel, g.walkMembers (g.walk fuel) node (m :: ms) ≠ .outOfFuel := by
      rintro ⟨fuel, hm⟩
      have hpast : ∀ b ∈ before ++ [m], ¬ g.HasStop node b := by
        simp only [mem_append, mem_singleton]
        rintro b (hb | rfl)
        · exact hbef b hb
        · exact not_hasStop_of_follow_eq_ok hm
      obtain ⟨fuel', hms⟩ := ih (by simp [hmems]) hpast
      refine ⟨max fuel fuel', ?_⟩
      have hm' := (approx_follow (walk_mono (le_max_left fuel fuel')) _).eq_ok hm
      have hms' := (approx_walkMembers (walk_mono (le_max_right fuel fuel')) node ms).eq_of_ne hms
      rw [walkMembers, hm', Outcome.ok_bind, hms']
      exact hms
    cases hlook : g.look node m with
    | pass => exact hrest ⟨0, by rw [hlook]; rfl⟩
    | stop => exact ⟨0, by simp [walkMembers, hlook, follow]⟩
    | enter node' =>
      obtain ⟨fuel, hnode'⟩ := hnodes node' ⟨m, hlooks, hlook⟩
      cases hwalk : g.walk fuel node' with
      | ok => exact hrest ⟨fuel, by rw [hlook]; exact hwalk⟩
      | err => exact ⟨fuel, by simp [walkMembers, hlook, follow, hwalk]⟩
      | panic msg => exact absurd hwalk walk_ne_panic
      | outOfFuel => exact absurd hwalk hnode'

/-- **When a walk returns.** -/
theorem exists_walk_returns_iff : (∃ fuel, g.walk fuel node ≠ .outOfFuel) ↔ Acc g.Enters node := by
  constructor
  · rintro ⟨fuel, h⟩
    exact acc_of_walk_returns h
  · intro h
    induction h with
    | intro node _ ih =>
      have hmems : g.members node = [] ++ g.members node := rfl
      obtain ⟨fuel, hfuel⟩ := exists_walkMembers_returns ih hmems (by simp)
      exact ⟨fuel + 1, hfuel⟩

end Graph

/-! ### What a computation comes to -/

/-- How a computation fails. -/
inductive Failure (ε : Type) where
  | error (e : ε)
  | panic (msg : String)

namespace Outcome

variable {ε α β : Type}

/-- A computation without its value: whether it returns one, and how it fails otherwise. -/
def fate : Outcome ε α → Outcome (Failure ε) Unit
  | ok _ => ok ()
  | err e => err (.error e)
  | panic msg => err (.panic msg)
  | outOfFuel => outOfFuel

variable {x : Outcome ε α}

theorem fate_bind {f : α → Outcome ε β} {y : Outcome (Failure ε) Unit} (hf : ∀ a, (f a).fate = y) :
    (x >>= f).fate = x.fate >>= fun _ => y := by
  cases x with
  | ok a => exact hf a
  | err e | panic msg | outOfFuel => rfl

theorem fate_eq_ok : x.fate = ok () ↔ ∃ a, x = ok a := by cases x <;> simp [fate]

theorem fate_eq_error {e : ε} : x.fate = err (.error e) ↔ x = err e := by cases x <;> simp [fate]

end Outcome

end Rust
