import Tauri.Rust.Outcome

/-!
# Reading lines

`tauri_utils::io::read_line` takes the bytes of a reader up to a newline or a carriage return. A
reader shows some of the bytes that are still to come, as many as it likes but at least one, and may
be interrupted at any call.

**A carriage return is looked for only where no newline is shown.** If both are shown, the line goes
on to the newline, whatever stands in front of it; if the reader stops between the two, it does not.
So the lines depend on what the reader shows at a time, except for streams with no newline behind a
carriage return (`readLines_eq_lines_iff`).
-/

namespace Tauri.ReadLine

open Rust List

/-- What a call of `fill_buf` does: it is interrupted, it fails, or it shows up to `n + 1` bytes. -/
inductive Fill (ε : Type) where
  | interrupted
  | failed (e : ε)
  | shows (n : Nat)
  deriving DecidableEq, Repr

/-- A reader: the bytes that have not been consumed, and what the calls of `fill_buf` will do. -/
structure Reader (ε : Type) where
  stream : List UInt8
  calls : List (Fill ε)
  deriving DecidableEq, Repr

/-- `b'\n'`. -/
def newline : UInt8 := 10

/-- `b'\r'`. -/
def carriageReturn : UInt8 := 13

/-- `memchr`. -/
def memchr (byte : UInt8) (bytes : List UInt8) : Option Nat := bytes.idxOf? byte

/-- How far a line goes in the bytes that are shown, and whether it ends there. -/
def scan (available : List UInt8) : Bool × Nat :=
  match memchr newline available with
  | some i => (true, i + 1)
  | none =>
    match memchr carriageReturn available with
    | some i => (true, i + 1)
    | none => (false, available.length)

variable {ε : Type}

/-- The loop of `read_line`: the number of bytes read, the buffer, and the reader afterwards. -/
def readLineFrom (read : Nat) (buf stream : List UInt8) :
    List (Fill ε) → Outcome ε (Nat × List UInt8 × Reader ε)
  | [] => .outOfFuel
  | .interrupted :: calls => readLineFrom read buf stream calls
  | .failed e :: _ => .err e
  | .shows n :: calls =>
    let available := stream.take (n + 1)
    let (done, used) := scan available
    let buf := buf ++ available.take used
    let stream := stream.drop used
    if done || used = 0 then .ok (read + used, buf, ⟨stream, calls⟩)
    else readLineFrom (read + used) buf stream calls

/-- `read_line`. -/
def readLine (r : Reader ε) (buf : List UInt8) : Outcome ε (Nat × List UInt8 × Reader ε) :=
  readLineFrom 0 buf r.stream r.calls

/-- `read_line` into an empty buffer until nothing is read. -/
def readLines : Nat → Reader ε → Outcome ε (List (List UInt8))
  | 0, _ => .outOfFuel
  | fuel + 1, r => do
    let (read, line, r) ← readLine r []
    if read = 0 then return []
    return line :: (← readLines fuel r)

/-! ### The lines of a stream -/

def IsTerminator (byte : UInt8) : Prop := byte = newline ∨ byte = carriageReturn

instance (byte : UInt8) : Decidable (IsTerminator byte) := inferInstanceAs (Decidable (_ ∨ _))

/-- The lines of a stream: each ends with the first terminator. -/
def lines : List UInt8 → List (List UInt8)
  | [] => []
  | byte :: bytes =>
    if IsTerminator byte then [byte] :: lines bytes
    else match lines bytes with
      | [] => [[byte]]
      | line :: rest => (byte :: line) :: rest

section Lines

variable {body rest stream : List UInt8} {t : UInt8}

theorem lines_append (hbody : ∀ b ∈ body, ¬IsTerminator b) (ht : IsTerminator t) :
    lines (body ++ t :: rest) = (body ++ [t]) :: lines rest := by
  induction body with
  | nil => simp [lines, ht]
  | cons b body ih =>
    obtain ⟨hb, hbody⟩ := forall_mem_cons.mp hbody
    rw [cons_append, lines, if_neg hb, ih hbody]
    rfl

theorem lines_of_forall_not (hbody : ∀ b ∈ body, ¬IsTerminator b) (hne : body ≠ []) :
    lines body = [body] := by
  induction body with
  | nil => exact absurd rfl hne
  | cons b body ih =>
    obtain ⟨hb, hbody⟩ := forall_mem_cons.mp hbody
    rw [lines, if_neg hb]
    cases body with
    | nil => rfl
    | cons => rw [ih hbody (by simp)]

theorem exists_first_terminator (stream : List UInt8) : (∀ b ∈ stream, ¬IsTerminator b) ∨
    ∃ body t rest, stream = body ++ t :: rest ∧ (∀ b ∈ body, ¬IsTerminator b) ∧ IsTerminator t := by
  induction stream with
  | nil => exact .inl (by simp)
  | cons b bytes ih =>
    by_cases hb : IsTerminator b
    · exact .inr ⟨[], b, bytes, rfl, by simp, hb⟩
    · grind

end Lines

/-! ### What one call reads -/

/-- No newline stands behind a carriage return. -/
def Ordered (stream : List UInt8) : Prop :=
  stream.Pairwise fun a b => ¬(a = carriageReturn ∧ b = newline)

instance (stream : List UInt8) : Decidable (Ordered stream) :=
  inferInstanceAs (Decidable (List.Pairwise _ _))

/-- The number of calls that show something. -/
def shown (calls : List (Fill ε)) : Nat :=
  calls.countP fun
    | .shows _ => true
    | _ => false

/-- No call fails. -/
def Unfailing (calls : List (Fill ε)) : Prop := ∀ e, .failed e ∉ calls

section Scan

variable {body rest stream : List UInt8} {t : UInt8}

theorem memchr_eq_none {byte : UInt8} {bytes : List UInt8} (h : byte ∉ bytes) :
    memchr byte bytes = none := idxOf?_eq_none_iff.mpr h

theorem memchr_append {byte : UInt8} (h : byte ∉ body) :
    memchr byte (body ++ byte :: rest) = some body.length := by
  induction body with
  | nil => simp [memchr, idxOf?_cons]
  | cons b body ih =>
    rw [mem_cons, not_or] at h
    have hrec := ih h.2
    rw [memchr] at hrec
    simp [memchr, idxOf?_cons, hrec, Ne.symm h.1]

theorem not_mem_of_forall_not (h : ∀ b ∈ body, ¬IsTerminator b) :
    newline ∉ body ∧ carriageReturn ∉ body :=
  ⟨fun hmem => h _ hmem (.inl rfl), fun hmem => h _ hmem (.inr rfl)⟩

theorem scan_of_forall_not (h : ∀ b ∈ body, ¬IsTerminator b) : scan body = (false, body.length) := by
  obtain ⟨hnewline, hreturn⟩ := not_mem_of_forall_not h
  rw [scan, memchr_eq_none hnewline, memchr_eq_none hreturn]

/-- In an ordered stream the first terminator is found, wherever the reader stops behind it. -/
theorem scan_of_ordered (hbody : ∀ b ∈ body, ¬IsTerminator b) (ht : IsTerminator t)
    (hord : Ordered (body ++ t :: rest)) : scan (body ++ t :: rest) = (true, body.length + 1) := by
  obtain ⟨hnewline, hreturn⟩ := not_mem_of_forall_not hbody
  rcases ht with rfl | rfl
  · rw [scan, memchr_append hnewline]
  · have hrest : newline ∉ rest := by
      intro hmem
      have hpair := (pairwise_append.mp hord).2.1
      exact (pairwise_cons.mp hpair).1 newline hmem ⟨rfl, rfl⟩
    have hnot : newline ∉ body ++ carriageReturn :: rest := by
      rw [mem_append, mem_cons]
      exact not_or.mpr ⟨hnewline, not_or.mpr ⟨by decide, hrest⟩⟩
    rw [scan, memchr_eq_none hnot, memchr_append hreturn]

end Scan

section Calls

variable {body rest stream : List UInt8} {t : UInt8} {calls : List (Fill ε)} {read n : Nat}
  {buf : List UInt8}

theorem readLineFrom_shows (read n : Nat) (buf stream : List UInt8) (calls : List (Fill ε)) :
    readLineFrom read buf stream (.shows n :: calls) =
      if (scan (stream.take (n + 1))).1 || (scan (stream.take (n + 1))).2 = 0 then
        .ok (read + (scan (stream.take (n + 1))).2,
          buf ++ (stream.take (n + 1)).take (scan (stream.take (n + 1))).2,
          ⟨stream.drop (scan (stream.take (n + 1))).2, calls⟩)
      else readLineFrom (read + (scan (stream.take (n + 1))).2)
        (buf ++ (stream.take (n + 1)).take (scan (stream.take (n + 1))).2)
        (stream.drop (scan (stream.take (n + 1))).2) calls := rfl

theorem readLineFrom_of_forall_not (h : ∀ b ∈ stream.take (n + 1), ¬IsTerminator b)
    (hne : stream ≠ []) :
    readLineFrom read buf stream (.shows n :: calls) =
      readLineFrom (read + (stream.take (n + 1)).length) (buf ++ stream.take (n + 1))
        (stream.drop (n + 1)) calls := by
  have hpos : 0 < stream.length := length_pos_iff.mpr hne
  have hused : ¬(stream.take (n + 1)).length = 0 := by rw [length_take]; omega
  rw [readLineFrom_shows, scan_of_forall_not h, if_neg (by simpa using hused), take_length]
  congr 1
  rw [length_take]
  rcases Nat.le_total (n + 1) stream.length with hle | hle
  · rw [Nat.min_eq_left hle]
  · rw [Nat.min_eq_right hle, drop_length, drop_eq_nil_of_le hle]

theorem readLineFrom_line (hbody : ∀ b ∈ body, ¬IsTerminator b) (ht : IsTerminator t)
    (hord : Ordered (body ++ t :: rest)) (hcalls : Unfailing calls)
    (hshown : body.length + 1 ≤ shown calls) : ∃ calls',
      readLineFrom read buf (body ++ t :: rest) calls =
        .ok (read + (body.length + 1), buf ++ (body ++ [t]), ⟨rest, calls'⟩) ∧
      Unfailing calls' ∧ shown calls ≤ shown calls' + (body.length + 1) := by
  induction calls generalizing body read buf with
  | nil => simp [shown] at hshown
  | cons call calls ih =>
    have hrest : Unfailing calls := fun e hmem => hcalls e (mem_cons_of_mem _ hmem)
    cases call with
    | interrupted => exact ih hbody hord hrest (by simpa [shown] using hshown)
    | failed e => exact absurd mem_cons_self (hcalls e)
    | shows n =>
      have hcnt : shown (.shows n :: calls) = shown calls + 1 := by simp [shown]
      rcases Nat.lt_or_ge n body.length with hlt | hle
      · -- The reader stops in front of the terminator.
        have htake : (body ++ t :: rest).take (n + 1) = body.take (n + 1) :=
          take_append_of_le_length hlt
        have hdrop : (body ++ t :: rest).drop (n + 1) = body.drop (n + 1) ++ t :: rest :=
          drop_append_of_le_length hlt
        have hlen : (body.take (n + 1)).length = n + 1 := by rw [length_take]; omega
        obtain ⟨calls', hrun, hcalls', hle⟩ := @ih (body.drop (n + 1)) (read + (n + 1))
          (buf ++ body.take (n + 1)) (fun b hb => hbody b (mem_of_mem_drop hb))
          (by rw [← hdrop]; exact hord.sublist (drop_sublist _ _)) hrest
          (by rw [length_drop]; omega)
        refine ⟨calls', ?_, hcalls', by rw [length_drop] at hle; omega⟩
        rw [readLineFrom_of_forall_not
          (by rw [htake]; exact fun b hb => hbody b (mem_of_mem_take hb)) (by simp), htake,
          hdrop, hlen, hrun]
        congr 2
        · rw [length_drop]; omega
        · rw [append_assoc, ← append_assoc (take _ _), take_append_drop]
      · have htake : (body ++ t :: rest).take (n + 1) = body ++ t :: rest.take (n - body.length) := by
          rw [take_append, take_of_length_le (by omega),
            show n + 1 - body.length = (n - body.length) + 1 by omega, take_succ_cons]
        have hscan := scan_of_ordered hbody ht (htake ▸ hord.sublist (take_sublist _ _))
        refine ⟨calls, ?_, hrest, by omega⟩
        rw [readLineFrom_shows, htake, hscan]
        have hline : (body ++ t :: rest.take (n - body.length)).take (body.length + 1) =
            body ++ [t] := by simp [take_append]
        have haft : (body ++ t :: rest).drop (body.length + 1) = rest := by
          simp [drop_append]
        rw [if_pos (by simp), hline, haft]

theorem readLineFrom_last (hbody : ∀ b ∈ body, ¬IsTerminator b) (hcalls : Unfailing calls)
    (hshown : body.length + 1 ≤ shown calls) : ∃ calls',
      readLineFrom read buf body calls = .ok (read + body.length, buf ++ body, ⟨[], calls'⟩) ∧
      Unfailing calls' ∧ shown calls ≤ shown calls' + (body.length + 1) := by
  induction calls generalizing body read buf with
  | nil => simp [shown] at hshown
  | cons call calls ih =>
    have hrest : Unfailing calls := fun e hmem => hcalls e (mem_cons_of_mem _ hmem)
    cases call with
    | interrupted => exact ih hbody hrest (by simpa [shown] using hshown)
    | failed e => exact absurd mem_cons_self (hcalls e)
    | shows n =>
      have hcnt : shown (.shows n :: calls) = shown calls + 1 := by simp [shown]
      rcases eq_or_ne body [] with rfl | hne
      · exact ⟨calls, by simp [readLineFrom_shows, scan_of_forall_not], hrest, by omega⟩
      · have hpos : 0 < body.length := length_pos_iff.mpr hne
        have hlen : (body.take (n + 1)).length + (body.drop (n + 1)).length = body.length := by
          rw [← length_append, take_append_drop]
        have htake : 0 < (body.take (n + 1)).length := by rw [length_take]; omega
        obtain ⟨calls', hrun, hcalls', hle⟩ := @ih (body.drop (n + 1))
          (read + (body.take (n + 1)).length) (buf ++ body.take (n + 1))
          (fun b hb => hbody b (mem_of_mem_drop hb)) hrest (by omega)
        refine ⟨calls', ?_, hcalls', by omega⟩
        rw [readLineFrom_of_forall_not (fun b hb => hbody b (mem_of_mem_take hb)) hne, hrun,
          Nat.add_assoc, hlen, append_assoc, take_append_drop]

end Calls

theorem readLines_nil {fuel : Nat} (hfuel : 0 < fuel) {calls : List (Fill ε)}
    (hcalls : Unfailing calls) (hshown : 1 ≤ shown calls) :
    readLines fuel ⟨[], calls⟩ = .ok [] := by
  obtain ⟨fuel, rfl⟩ := Nat.exists_eq_add_of_lt hfuel
  obtain ⟨calls', hrun, -, -⟩ := @readLineFrom_last ε [] calls 0 [] (by simp) hcalls hshown
  rw [Nat.zero_add, readLines, readLine, hrun]
  rfl

variable {stream : List UInt8}

theorem readLines_of_ordered (hord : Ordered stream) {fuel : Nat}
    (hfuel : stream.length < fuel) {calls : List (Fill ε)} (hcalls : Unfailing calls)
    (hshown : stream.length + 2 ≤ shown calls) :
    readLines fuel ⟨stream, calls⟩ = .ok (lines stream) := by
  induction fuel generalizing stream calls with
  | zero => omega
  | succ fuel ih =>
    rcases exists_first_terminator stream with hnone | ⟨body, t, rest, rfl, hbody, ht⟩
    · rcases eq_or_ne stream [] with rfl | hne
      · exact readLines_nil (by omega) hcalls (by omega)
      · have hpos : 0 < stream.length := length_pos_iff.mpr hne
        obtain ⟨calls', hrun, hcalls', hle⟩ :=
          @readLineFrom_last ε stream calls 0 [] hnone hcalls (by omega)
        have hlast := @readLines_nil ε fuel (by omega) calls' hcalls' (by omega)
        rw [readLines, readLine, hrun, lines_of_forall_not hnone hne]
        simp [hlast, hne]
    · rw [length_append, length_cons] at hfuel hshown
      obtain ⟨calls', hrun, hcalls', hle⟩ :=
        @readLineFrom_line ε body rest t calls 0 [] hbody ht hord hcalls (by omega)
      have hrest := @ih rest (hord.sublist (by simp)) (by omega) calls' hcalls' (by omega)
      rw [readLines, readLine, hrun, lines_append hbody ht]
      simp [hrest]

theorem ordered_of_newline_not_mem (h : newline ∉ stream) : Ordered stream :=
  pairwise_of_forall_mem_list fun _ _ _ hb heq => h (heq.2 ▸ hb)

/-- A reader that shows the whole stream goes past a carriage return to the next newline. -/
theorem readLines_ne_of_not_ordered (hord : ¬Ordered stream) {n : Nat}
    (hn : stream.length ≤ n) (fuel k : Nat) :
    readLines fuel (⟨stream, List.replicate k (.shows n)⟩ : Reader ε) ≠ .ok (lines stream) := by
  induction fuel generalizing stream k with
  | zero => exact fun h => by cases h
  | succ fuel ih =>
    cases k with
    | zero => exact fun h => by cases h
    | succ k =>
      have hmem : newline ∈ stream := by
        by_contra hnot
        exact hord (ordered_of_newline_not_mem hnot)
      obtain ⟨body, rest, rfl, hbody⟩ := eq_append_cons_of_mem hmem
      have hrun : readLine (⟨body ++ newline :: rest, replicate (k + 1) (.shows n)⟩ : Reader ε) [] =
          .ok (body.length + 1, body ++ [newline], ⟨rest, replicate k (.shows n)⟩) := by
        have hline : (body ++ newline :: rest).take (body.length + 1) = body ++ [newline] := by
          simp [take_append]
        have haft : (body ++ newline :: rest).drop (body.length + 1) = rest := by
          simp [drop_append]
        have hwhole : (body ++ newline :: rest).take (n + 1) = body ++ newline :: rest :=
          take_of_length_le (by omega)
        rw [readLine, replicate_succ, readLineFrom_shows, hwhole, scan, memchr_append hbody]
        simp [hline, haft]
      have hnext : readLines (fuel + 1)
          (⟨body ++ newline :: rest, replicate (k + 1) (.shows n)⟩ : Reader ε) =
          readLines fuel ⟨rest, replicate k (.shows n)⟩ >>= fun ls =>
            .ok ((body ++ [newline]) :: ls) := by
        rw [readLines, hrun]
        rfl
      rw [hnext]
      intro hok
      obtain ⟨ls, hls, heq⟩ := Outcome.bind_eq_ok.mp hok
      have heq := Outcome.ok.inj heq
      rcases exists_first_terminator body with hnone | ⟨front, t, back, rfl, hfront, ht⟩
      · -- The first line is right, and the newline behind a carriage return is in the rest.
        rw [lines_append hnone (.inl rfl)] at heq
        have hrest : ¬Ordered rest := by
          intro hrest
          refine hord (pairwise_append.mpr ⟨?_, pairwise_cons.mpr ⟨?_, hrest⟩, ?_⟩)
          · exact ordered_of_newline_not_mem hbody
          · exact fun b _ hb => absurd hb.1 (by decide)
          · exact fun a ha b _ hab => (not_mem_of_forall_not hnone).2 (hab.1 ▸ ha)
        rw [length_append, length_cons] at hn
        exact ih hrest (by omega) k (by rw [hls, (cons.inj heq).2])
      · have hstream : front ++ t :: back ++ newline :: rest =
            front ++ t :: (back ++ newline :: rest) := by simp
        rw [hstream, lines_append hfront ht] at heq
        have hlen := congrArg length (cons.inj heq).1
        simp at hlen

/-- A stream is read line by line by every reader that is asked often enough, exactly if no newline
stands behind a carriage return. -/
theorem readLines_eq_lines_iff (stream : List UInt8) :
    (∀ (fuel : Nat) (calls : List (Fill ε)), stream.length < fuel → Unfailing calls →
      stream.length + 2 ≤ shown calls →
        readLines fuel ⟨stream, calls⟩ = .ok (lines stream)) ↔ Ordered stream := by
  constructor
  · intro h
    by_contra hord
    refine readLines_ne_of_not_ordered hord le_rfl (stream.length + 1) (stream.length + 2)
      (h _ _ (Nat.lt_succ_self _) (fun e hmem => ?_) ?_)
    · cases eq_of_mem_replicate hmem
    · simp [shown, countP_replicate]
  · intro hord fuel calls hfuel hcalls hshown
    exact readLines_of_ordered hord hfuel hcalls hshown

/-- `a`, a carriage return, `b` and a newline: one line if they are shown together, two if the
reader stops behind the carriage return. -/
theorem readLines_depends_on_chunks :
    let stream : List UInt8 := [97, 13, 98, 10]
    lines stream = [[97, 13], [98, 10]] ∧
      readLines 5 (⟨stream, [.shows 3, .interrupted, .shows 0]⟩ : Reader Unit) =
        .ok [[97, 13, 98, 10]] ∧
      readLines 5 (⟨stream, [.shows 1, .interrupted, .shows 1, .shows 0]⟩ : Reader Unit) =
        .ok [[97, 13], [98, 10]] := by
  decide

end Tauri.ReadLine
