import Mathlib

/-!
# Words with joints

A word may be held together by joints, such as the hyphens of `left-to-right`: a joint stands
between two other characters. `Jointed` says this about any position of the word; `Jointed.Rest` is
the same thing read from left to right, one character at a time, and is what a scanner carries
along.
-/

namespace Rust

open List

variable {α β : Type}

/-- A word that is not empty and made of `good` characters and of joints between two of them. -/
structure Jointed (good : α → Bool) (joint : α) (word : List α) : Prop where
  ne_nil : word ≠ []
  valid : ∀ a ∈ word, good a = true ∨ a = joint
  between : ∀ before after, word = before ++ joint :: after →
    (∃ a, before.getLast? = some a ∧ good a = true) ∧ ∃ a, after.head? = some a ∧ good a = true

namespace Jointed

/-- The rest of a word, behind the character `p`. -/
def Rest (good : α → Bool) (joint : α) : α → List α → Prop
  | p, [] => p ≠ joint
  | p, a :: word => (good a = true ∨ (a = joint ∧ p ≠ joint)) ∧ Rest good joint a word

variable {good : α → Bool} {joint : α} {word : List α}

instance decidableRest [DecidableEq α] :
    (p : α) → (word : List α) → Decidable (Rest good joint p word)
  | p, [] => inferInstanceAs (Decidable (p ≠ joint))
  | _, a :: word =>
    have := decidableRest a word
    inferInstanceAs (Decidable (_ ∧ _))

theorem not_nil : ¬ Jointed good joint [] := fun h => h.ne_nil rfl

section

variable (hjoint : good joint = false)
include hjoint

theorem rest_iff {p : α} (hp : good p = true ∨ p = joint) :
    Rest good joint p word ↔ (∀ a ∈ word, good a = true ∨ a = joint) ∧
      ∀ before after, p :: word = before ++ joint :: after →
        (before ≠ [] → ∃ a, before.getLast? = some a ∧ good a = true) ∧
          ∃ a, after.head? = some a ∧ good a = true := by
  induction word generalizing p with
  | nil =>
    constructor
    · refine fun hne => ⟨by simp, fun before after heq => ?_⟩
      obtain ⟨-, hcons⟩ | ⟨-, hcons⟩ := append_eq_singleton_iff.mp heq.symm
      · exact absurd (cons.inj hcons).1.symm hne
      · cases hcons
    · rintro ⟨-, hbet⟩ rfl
      obtain ⟨-, a, ha, -⟩ := hbet [] [] rfl
      cases ha
  | cons b word ih =>
    constructor
    · rintro ⟨hb, hrest⟩
      have hb' : good b = true ∨ b = joint := hb.imp_right And.left
      obtain ⟨hval, hbet⟩ := (ih hb').mp hrest
      refine ⟨forall_mem_cons.mpr ⟨hb', hval⟩, fun before after heq => ?_⟩
      cases before with
      | nil =>
        obtain ⟨rfl, rfl⟩ := cons.inj heq
        exact ⟨fun h => absurd rfl h, b, rfl, hb.resolve_right fun h => h.2 rfl⟩
      | cons q before =>
        obtain ⟨rfl, htail⟩ := cons.inj heq
        obtain ⟨hlast, hhead⟩ := hbet before after htail
        refine ⟨fun _ => ?_, hhead⟩
        cases before with
        | nil =>
          -- the character in front of this joint is `p`
          obtain ⟨rfl, -⟩ := cons.inj htail
          have hne : p ≠ b := (hb.resolve_left (by simp [hjoint])).2
          exact ⟨p, rfl, hp.resolve_right hne⟩
        | cons =>
          rw [getLast?_cons_cons]
          exact hlast (cons_ne_nil _ _)
    · rintro ⟨hval, hbet⟩
      obtain ⟨hb, hval⟩ := forall_mem_cons.mp hval
      refine ⟨hb.imp_right fun hb => ⟨hb, ?_⟩, (ih hb).mpr ⟨hval, ?_⟩⟩
      · obtain ⟨hlast, -⟩ := hbet [p] word (by rw [hb]; rfl)
        obtain ⟨q, hq, hgood⟩ := hlast (cons_ne_nil _ _)
        obtain rfl : p = q := Option.some.inj hq
        exact fun h => by simp [h, hjoint] at hgood
      · grind

theorem cons_iff {a : α} :
    Jointed good joint (a :: word) ↔ good a = true ∧ Rest good joint a word := by
  constructor
  · rintro ⟨-, hval, hbet⟩
    obtain ⟨ha, hval⟩ := forall_mem_cons.mp hval
    have hfirst : good a = true := by
      refine ha.resolve_right fun ha => ?_
      obtain ⟨⟨c, hc, -⟩, -⟩ := hbet [] word (by rw [ha]; rfl)
      cases hc
    refine ⟨hfirst, (rest_iff hjoint ha).mpr ⟨hval, fun before after heq => ?_⟩⟩
    exact (hbet before after heq).imp_left fun h _ => h
  · rintro ⟨ha, hrest⟩
    obtain ⟨hval, hbet⟩ := (rest_iff hjoint (.inl ha)).mp hrest
    refine ⟨cons_ne_nil _ _, forall_mem_cons.mpr ⟨.inl ha, hval⟩, ?_⟩
    intro before after heq
    obtain ⟨hlast, hhead⟩ := hbet before after heq
    refine ⟨hlast ?_, hhead⟩
    rintro rfl
    rw [(cons.inj heq).1, hjoint] at ha
    cases ha

theorem rest_append {p : α} {left right : List α} :
    Rest good joint p (left ++ joint :: right) ↔
      Rest good joint p left ∧ Jointed good joint right := by
  induction left generalizing p with
  | nil =>
    have hright : Rest good joint joint right ↔ Jointed good joint right := by
      cases right with
      | nil => simp [Rest, not_nil]
      | cons => simp [Rest, cons_iff hjoint]
    simp [Rest, hjoint, hright]
  | cons a left ih => rw [cons_append, Rest, Rest, ih, and_assoc]

theorem append_iff {left right : List α} :
    Jointed good joint (left ++ joint :: right) ↔
      Jointed good joint left ∧ Jointed good joint right := by
  cases left with
  | nil => simp [cons_iff hjoint, hjoint, not_nil]
  | cons => rw [cons_append, cons_iff hjoint, cons_iff hjoint, rest_append hjoint,
      and_assoc]

end

section Map

variable {good' : β → Bool} {joint' : β} {f : α → β}

theorem rest_map {p : α} (hgood : ∀ a ∈ word, good' (f a) = good a)
    (heq : ∀ a ∈ p :: word, f a = joint' ↔ a = joint) :
    Rest good' joint' (f p) (word.map f) ↔ Rest good joint p word := by
  induction word generalizing p with
  | nil => exact not_congr (heq p mem_cons_self)
  | cons a word ih =>
    have hp := heq p mem_cons_self
    have htail : ∀ c ∈ a :: word, f c = joint' ↔ c = joint :=
      fun c hc => heq c (mem_cons_of_mem _ hc)
    rw [map_cons, Rest, Rest, ih (fun c hc => hgood c (mem_cons_of_mem _ hc)) htail,
      hgood a mem_cons_self, htail a mem_cons_self, Ne, hp]

theorem map_iff (hjoint : good joint = false) (hjoint' : good' joint' = false)
    (hgood : ∀ a ∈ word, good' (f a) = good a) (heq : ∀ a ∈ word, f a = joint' ↔ a = joint) :
    Jointed good' joint' (word.map f) ↔ Jointed good joint word := by
  cases word with
  | nil => simp [not_nil]
  | cons a =>
    rw [map_cons, cons_iff hjoint, cons_iff hjoint', hgood a mem_cons_self,
      rest_map (fun c hc => hgood c (mem_cons_of_mem _ hc)) heq]

end Map

end Jointed

end Rust
