import Tauri.Rust.PathBuf

/-!
# Resolving paths

The command `resolve` of the path plugin pushes its arguments onto the current directory, one by
one, and normalises the text that comes out. Pushing can replace everything before it and
normalising pops at the root, so it is not evident that resolving in two steps is the same as in
one. It is (`resolve_append`): both only see the **stack** of names that a text stands for and
whether it is absolute, and on these pushing and normalising commute.
-/

namespace Tauri.PathPlugin

open Rust Rust.PathBuf List

/-- The errors of the path plugin that these commands return. -/
inductive Error where
  | currentDir (message : String)
  deriving DecidableEq, Repr

section Commands

variable {α : Type} [DecidableEq α] [PathChar α]

/-- The body of the loop of `normalize_path`. -/
def normalizeStep (ret : List α) : Component α → List α
  | .rootDir => push ret [sep]
  | .curDir => ret
  | .parentDir => pop ret
  | .normal c => push ret c

/-- `normalize_path`. There are no prefixes on Unix. -/
def normalizePath (path : List α) : List α := (components path).foldl normalizeStep []

/-- The command `resolve`; `dunce::simplified` is the identity on Unix. -/
def resolve (currentDir : Except String (List α)) (paths : List (List α)) :
    Except Error (List α) := do
  let path ← currentDir.mapError Error.currentDir
  return normalizePath (paths.foldl push path)

end Commands

section Resolve

variable {α : Type} [DecidableEq α] [PathChar α] {names : List (List α)} {p q : List α}

theorem normalizeStep_text (h : ∀ n ∈ names, IsName n) {c : Component α} (hroot : c ≠ .rootDir)
    (hc : ∀ n, c = .normal n → IsName n) (absolute : Bool) :
    normalizeStep (text absolute names) c = text absolute (walk names c) := by
  cases c with
  | rootDir => exact absurd rfl hroot
  | curDir => rfl
  | parentDir => exact pop_text h absolute
  | normal n => exact push_text h (hc n rfl) absolute

theorem normalizeStep_writes : Writes (α := α) normalizeStep walk where
  rootDir := by simp [normalizeStep, push, isAbsolute]
  curDir := rfl
  keepsNames := walk_isName
  step := fun h hroot hc => normalizeStep_text h hroot hc

theorem normalizePath_eq (p : List α) : normalizePath p = text (isAbsolute p) (stack p) :=
  normalizeStep_writes.components p

theorem foldl_push_congr (habsolute : isAbsolute p = isAbsolute q) (hstack : stack p = stack q)
    (paths : List (List α)) : isAbsolute (paths.foldl push p) = isAbsolute (paths.foldl push q) ∧
      stack (paths.foldl push p) = stack (paths.foldl push q) := by
  induction paths generalizing p q with
  | nil => exact ⟨habsolute, hstack⟩
  | cons a paths ih =>
    by_cases ha : isAbsolute a = true
    · have hrepl : ∀ r : List α, push r a = a := fun r => by rw [push, if_pos ha]
      rw [foldl_cons, foldl_cons, hrepl, hrepl]
      exact ⟨rfl, rfl⟩
    · rw [Bool.not_eq_true] at ha
      refine ih ?_ ?_
      · rw [isAbsolute_push_of_relative ha, isAbsolute_push_of_relative ha, habsolute]
      · rw [stack_push_of_relative ha, stack_push_of_relative ha, hstack]

theorem isAbsolute_foldl_push (hp : isAbsolute p = true) (paths : List (List α)) :
    isAbsolute (paths.foldl push p) = true := by
  induction paths generalizing p with
  | nil => exact hp
  | cons a paths ih =>
    by_cases ha : isAbsolute a = true
    · exact ih (by rw [push, if_pos ha, ha])
    · rw [Bool.not_eq_true] at ha
      exact ih (by rw [isAbsolute_push_of_relative ha, hp])

theorem resolve_ok (cwd : List α) (paths : List (List α)) :
    resolve (.ok cwd) paths = .ok (normalizePath (paths.foldl push cwd)) := rfl

theorem resolve_absolute (cwd : List α) (xs ys : List (List α)) {a : List α}
    (ha : isAbsolute a = true) :
    resolve (.ok cwd) (xs ++ a :: ys) = .ok (normalizePath (ys.foldl push a)) := by
  rw [resolve_ok, foldl_append, foldl_cons, push, if_pos ha]

theorem segments_text_absolute (h : ∀ n ∈ names, IsName n) {s : List α}
    (hs : s ∈ segments (text true names)) : s = [] ∨ s ∈ names := by
  have hsplit : segments (text true names) = [] :: segments ([sep].intercalate names) :=
    splitOn_append_cons_self [] _
  rw [hsplit, mem_cons, segments] at hs
  rcases hs with hs | hs
  · exact .inl hs
  · by_cases hnil : names = []
    · exact .inl (by simpa [hnil] using hs)
    · rw [splitOn_intercalate _ (fun n hn => (h n hn).1) hnil] at hs
      exact .inr hs

/-- **Resolution composes.** Resolving in two steps is resolving in one. The result is absolute
and has no `.` and no `..`, and only the elements from the last absolute one on matter. -/
theorem resolve_append (cwd : List α) (hcwd : isAbsolute cwd = true) (xs ys : List (List α)) :
    (∃ r, resolve (.ok cwd) xs = .ok r ∧
      resolve (.ok cwd) (xs ++ ys) = resolve (.ok cwd) ([r] ++ ys) ∧
      isAbsolute r = true ∧ ∀ s ∈ segments r, s ≠ [dot] ∧ s ≠ [dot, dot]) ∧
    ∀ (cwd' : List α) (ws ws' : List (List α)) (a : List α), isAbsolute a = true →
      resolve (.ok cwd') (ws ++ a :: ys) = resolve (.ok cwd) (ws' ++ a :: ys) := by
  constructor
  · have habsolute : isAbsolute (xs.foldl push cwd) = true := isAbsolute_foldl_push hcwd xs
    have hr : normalizePath (xs.foldl push cwd) = text true (stack (xs.foldl push cwd)) := by
      rw [normalizePath_eq, habsolute]
    refine ⟨_, resolve_ok cwd xs, ?_, ?_, ?_⟩
    · -- The result stands for the stack it was written from.
      have hcongr := foldl_push_congr (p := xs.foldl push cwd)
        (q := normalizePath (xs.foldl push cwd))
        (by rw [hr, isAbsolute_text stack_isName, habsolute])
        (by rw [hr, stack_text stack_isName]) ys
      have hrepl := resolve_absolute cwd [] ys (a := normalizePath (xs.foldl push cwd))
        (by rw [hr, isAbsolute_text stack_isName])
      rw [singleton_append, ← nil_append (_ :: ys), hrepl, resolve_ok,
        foldl_append, normalizePath_eq, normalizePath_eq (ys.foldl push _), hcongr.1, hcongr.2]
    · rw [hr, isAbsolute_text stack_isName]
    · intro s hs
      rw [hr] at hs
      rcases segments_text_absolute stack_isName hs with rfl | hs
      · simp
      · exact ⟨(stack_isName s hs).ne_dot, (stack_isName s hs).ne_dotdot⟩
  · intro cwd' ws ws' a ha
    rw [resolve_absolute _ _ _ ha, resolve_absolute _ _ _ ha]

/-- From `/home/user`, with a `..` that the second step takes back from the first. -/
theorem sample_resolve_append :
    isAbsolute "/home/user".toList = true ∧
      ∃ r, resolve (.ok "/home/user".toList) ["a/./b".toList, "".toList] = .ok r ∧
        resolve (.ok "/home/user".toList) (["a/./b".toList, "".toList] ++ ["../../c".toList]) =
          resolve (.ok "/home/user".toList) ([r] ++ ["../../c".toList]) ∧
        r = "/home/user/a/b".toList := by
  obtain ⟨⟨r, hr, happ, -⟩, -⟩ :=
    resolve_append "/home/user".toList rfl ["a/./b".toList, "".toList] ["../../c".toList]
  exact ⟨rfl, r, hr, happ, (Except.ok.inj (hr.symm.trans rfl) : r = "/home/user/a/b".toList)⟩

end Resolve

end Tauri.PathPlugin
