import Tauri.Rust.Outcome

/-!
# Open files

A file opened for reading is its content and a position in it. What its length and the positions
are computed with is the arithmetic of `u64`, which **panics** when a result does not fit.
-/

namespace Rust

/-! ### Checked arithmetic -/

section Checked

variable {ε : Type} {a b : Nat}

/-- `a + b` in `u64`. -/
def addU64 (a b : Nat) : Outcome ε Nat :=
  if a + b < 2 ^ 64 then .ok (a + b) else .panic "attempt to add with overflow"

/-- `a - b` in `u64`. -/
def subU64 (a b : Nat) : Outcome ε Nat :=
  if b ≤ a then .ok (a - b) else .panic "attempt to subtract with overflow"

theorem addU64_of_lt (h : a + b < 2 ^ 64) : (addU64 a b : Outcome ε Nat) = .ok (a + b) :=
  if_pos h

theorem subU64_of_le (h : b ≤ a) : (subU64 a b : Outcome ε Nat) = .ok (a - b) :=
  if_pos h

theorem subU64_of_lt (h : a < b) :
    (subU64 a b : Outcome ε Nat) = .panic "attempt to subtract with overflow" :=
  if_neg (by omega)

end Checked

/-! ### Files -/

/-- What a file can hold: its length is a `u64`. -/
structure Content where
  bytes : List UInt8
  length_lt : bytes.length < 2 ^ 64

/-- The length of a file. -/
def Content.len (content : Content) : Nat := content.bytes.length

theorem Content.len_lt (content : Content) : content.len < 2 ^ 64 := content.length_lt

/-- `File`, opened for reading. -/
structure File where
  content : Content
  position : Nat

namespace File

/-- `File::open`, of a file that is there. -/
def opened (content : Content) : File := ⟨content, 0⟩

/-- `seek(SeekFrom::End(0))`, with the new position. -/
def seekEnd (file : File) : Nat × File := (file.content.len, ⟨file.content, file.content.len⟩)

/-- `seek(SeekFrom::Start(position))`. -/
def seekStart (file : File) (position : Nat) : File := ⟨file.content, position⟩

/-- `take(count).read_to_end(..)`. -/
def take (file : File) (count : Nat) : List UInt8 × File :=
  let read := (file.content.bytes.drop file.position).take count
  (read, ⟨file.content, file.position + read.length⟩)

/-- `read_to_end`. -/
def readToEnd (file : File) : List UInt8 × File :=
  let read := file.content.bytes.drop file.position
  (read, ⟨file.content, file.position + read.length⟩)

end File

end Rust
