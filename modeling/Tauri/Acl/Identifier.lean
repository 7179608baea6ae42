import Tauri.Rust.Str

/-!
# Permission identifiers

An identifier names a permission or a permission set, as `base` or `prefix:base`; the prefix is
the key of the manifest that declares it. `Identifier.tryFrom` is the byte scanner of
`Identifier::try_from`: one pass that carries the previous byte, the position and the position
of the last separator. The fields of the source type are private and this scanner is their only
writer, so `Identifier` **carries the successful scan**: an identifier that the scanner rejects
cannot be built.

A scanned identifier is ASCII, so cutting it at a byte position is cutting its list of
characters at the same position.
-/

namespace Tauri.Acl

open Rust

/-- `IDENTIFIER_SEPARATOR`. -/
def identifierSeparator : UInt8 := 58

/-- The hyphen `b'-'`. -/
def hyphen : UInt8 := 45

/-- `PLUGIN_PREFIX`. -/
def pluginPrefix : String := "tauri-plugin-"

/-- `CORE_PLUGIN_IDENTIFIER_PREFIX`. -/
def corePluginIdentifierPrefix : String := "core:"

/-- `MAX_LEN_IDENTIFIER`: a prefix of at most `64 - 13` bytes, the separator and a base of at
most `64` bytes. -/
def maxLenIdentifier : Nat := (64 - 13) + 1 + 64

/-- `u8::is_ascii_alphanumeric`. -/
def isAsciiAlphanumeric (b : UInt8) : Bool :=
  (48 ≤ b && b ≤ 57) || (65 ≤ b && b ≤ 90) || (97 ≤ b && b ≤ 122)

/-- The last byte the scanner accepted. -/
inductive ValidByte where
  | separator
  | byte (b : UInt8)
  deriving DecidableEq, Repr

namespace ValidByte

def alphaNumeric (b : UInt8) : Option ValidByte :=
  if isAsciiAlphanumeric b then some (.byte b) else none

def alphaNumericHyphen (b : UInt8) : Option ValidByte :=
  if isAsciiAlphanumeric b || b == hyphen then some (.byte b) else none

/-- Whether the byte `b` may follow. The separator after a separator is accepted here and left
to the caller's count. -/
def next : ValidByte → UInt8 → Option ValidByte
  | .byte p, b =>
    if p = hyphen ∧ b = identifierSeparator then none
    else if b = identifierSeparator then some .separator
    else if p = hyphen then alphaNumeric b
    else alphaNumericHyphen b
  | .separator, b =>
    if b = hyphen then none
    else if b = identifierSeparator then some .separator
    else alphaNumeric b

end ValidByte

/-- The errors of `Identifier::try_from`. -/
inductive ParseIdentifierError where
  | startsWithTauriPlugin
  | empty
  | humongous (len : Nat)
  | invalidFormat
  | multipleSeparators
  | trailingHyphen
  | prefixWithoutBase
  deriving DecidableEq, Repr

/-- The scanning loop: `idx` counts the bytes consumed before the current one. -/
def scan (isCoreIdentifier : Bool) :
    ValidByte → Nat → Option Nat → List UInt8 →
      Except ParseIdentifierError (ValidByte × Option Nat)
  | prev, _, separator, [] => .ok (prev, separator)
  | prev, idx, separator, b :: bs =>
    match prev.next b with
    | none => .error .invalidFormat
    | some (.byte b) => scan isCoreIdentifier (.byte b) (idx + 1) separator bs
    | some .separator =>
      if separator.isNone || isCoreIdentifier then
        scan isCoreIdentifier .separator (idx + 1) (some (idx + 1)) bs
      else .error .multipleSeparators

/-- The checks of `Identifier::try_from` on a string; on success, the position of the
separator that ends the prefix. -/
def scanIdentifier (value : String) : Except ParseIdentifierError (Option Nat) :=
  if startsWith pluginPrefix value then .error .startsWithTauriPlugin
  else if value.isEmpty then .error .empty
  else if (bytes value).length > maxLenIdentifier then .error (.humongous (bytes value).length)
  else
    match bytes value with
    | [] => .error .invalidFormat
    | b :: bs =>
      match ValidByte.alphaNumeric b with
      | none => .error .invalidFormat
      | some prev =>
        match scan (startsWith corePluginIdentifierPrefix value) prev 0 none bs with
        | .error e => .error e
        | .ok (.separator, _) => .error .prefixWithoutBase
        | .ok (.byte b, separator) => if b = hyphen then .error .trailingHyphen else .ok separator

/-- A permission identifier: a string together with its successful scan. -/
structure Identifier where
  inner : String
  separator : Option Nat
  scanned : scanIdentifier inner = .ok separator
  deriving DecidableEq

namespace Identifier

/-- `Identifier::try_from`. -/
def tryFrom (value : String) : Except ParseIdentifierError Identifier :=
  match h : scanIdentifier value with
  | .ok separator => .ok ⟨value, separator, h⟩
  | .error e => .error e

/-- `Identifier::get_base`. -/
def getBase (id : Identifier) : String :=
  match id.separator with
  | none => id.inner
  | some i => String.ofList (id.inner.toList.drop (i + 1))

/-- `Identifier::get_prefix`. -/
def getPrefix (id : Identifier) : Option String :=
  id.separator.map fun i => String.ofList (id.inner.toList.take i)

theorem ext_inner {id id' : Identifier} (h : id.inner = id'.inner) : id = id' := by
  obtain ⟨s, sep, hs⟩ := id
  obtain ⟨s', sep', hs'⟩ := id'
  obtain rfl : s = s' := h
  rw [hs] at hs'
  cases hs'
  rfl

theorem tryFrom_eq_ok {value : String} {id : Identifier} :
    tryFrom value = .ok id ↔ id.inner = value := by
  constructor
  · intro h
    unfold tryFrom at h
    split at h
    · cases h
      rfl
    · cases h
  · rintro rfl
    unfold tryFrom
    split
    case h_1 separator hsep => exact congrArg _ (ext_inner rfl)
    case h_2 e he =>
      rw [id.scanned] at he
      cases he

end Identifier

example : (Identifier.tryFrom "core:window:default").toOption.map
    (fun id => (id.getPrefix, id.getBase)) = some (some "core:window", "default") := by decide

end Tauri.Acl
