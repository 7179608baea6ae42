import Tauri.Acl.Types
import Tauri.Rust.Document
import Tauri.Rust.F64

/-!
# Scope values as JSON and as TOML

`acl::Value` stands between the formats of the configuration files and the types of the scopes:
files are converted to it, and it is converted to JSON where a scope object is deserialised. All
conversions go through lists and maps, and differ at the leaves, so what they preserve is read off
the conversion of one number.

**A number of a JSON value becomes a float.** `From<serde_json::Value>` asks for `as_f64` first,
which every number has, so the arms for integers are not reached: a value that had an integer is
not the same value when it comes back, and an integer cannot be deserialised from it any more. The
derived `Deserialize`, which tries `Int` before `Float`, keeps integers.

**A float without a JSON number panics.** `From<Value> for serde_json::Value` unwraps
`Number::from_f64`, which has no number for `nan` and `inf`. JSON documents do not have these, TOML
documents do.
-/

namespace Tauri.Acl

open Rust

/-! ### The formats -/

/-- `serde_json::Number`: a negative integer is below zero, and a float is finite. -/
inductive JsonNumber where
  | posInt (n : UInt64)
  | negInt (i : Int64) (h : i < 0)
  | float (bits : UInt64) (h : F64.isFinite bits = true)
  deriving DecidableEq

namespace JsonNumber

/-- `Number::as_f64`, without the feature `arbitrary_precision`. -/
def asF64 : JsonNumber → Option UInt64
  | posInt n => some (F64.ofInt n.toNat)
  | negInt i _ => some (F64.ofInt i.toInt)
  | float bits _ => some bits

/-- `Number::as_u64`. -/
def asU64 : JsonNumber → Option UInt64
  | posInt n => some n
  | _ => none

/-- `Number::as_i64`, and what an `i64` is deserialised from. -/
def asI64 : JsonNumber → Option Int64
  | posInt n => if n.toNat < 2 ^ 63 then some n.toInt64 else none
  | negInt i _ => some i
  | float _ _ => none

/-- `Number::from_f64`. -/
def fromF64 (bits : UInt64) : Option JsonNumber :=
  if h : F64.isFinite bits = true then some (float bits h) else none

/-- `Number::from` of an `i64`. -/
def ofI64 (i : Int64) : JsonNumber := if h : i < 0 then negInt i h else posInt i.toUInt64

end JsonNumber

/-- What is at the leaves of a `serde_json::Value`. -/
inductive JsonScalar where
  | null
  | bool (b : Bool)
  | number (n : JsonNumber)
  | string (s : String)
  deriving DecidableEq

/-- `serde_json::Value`. -/
abbrev Json := Document JsonScalar

/-- What is at the leaves of a `toml::Value`; a datetime is given by its text. -/
inductive TomlScalar where
  | string (s : String)
  | integer (i : Int64)
  | float (bits : UInt64)
  | boolean (b : Bool)
  | datetime (text : String)
  deriving DecidableEq

/-- `toml::Value`. -/
abbrev Toml := Document TomlScalar

/-- What is at the leaves of a `Value`. -/
inductive Scalar where
  | null
  | bool (b : Bool)
  | number (n : Number)
  | string (s : String)
  deriving DecidableEq

namespace Value

/-- The value with these leaves. -/
def ofScalar : Scalar → Value
  | .null => .null
  | .bool b => .bool b
  | .number n => .number n
  | .string s => .string s

mutual

/-- A value as a document. -/
def toDocument : Value → Document Scalar
  | .null => .leaf .null
  | .bool b => .leaf (.bool b)
  | .number n => .leaf (.number n)
  | .string s => .leaf (.string s)
  | .list vs => .list (toDocuments vs)
  | .map entries => .map (toEntries entries)

/-- The values of a list. -/
def toDocuments : List Value → List (Document Scalar)
  | [] => []
  | v :: vs => toDocument v :: toDocuments vs

/-- The values of a map. -/
def toEntries : List (String × Value) → List (String × Document Scalar)
  | [] => []
  | (k, v) :: entries => (k, toDocument v) :: toEntries entries

end

mutual

/-- The value that a document is. -/
def ofDocument : Document Scalar → Value
  | .leaf s => ofScalar s
  | .list ds => .list (ofDocuments ds)
  | .map entries => .map (ofEntries entries)

/-- The documents of a list. -/
def ofDocuments : List (Document Scalar) → List Value
  | [] => []
  | d :: ds => ofDocument d :: ofDocuments ds

/-- The documents of a map. -/
def ofEntries : List (String × Document Scalar) → List (String × Value)
  | [] => []
  | (k, d) :: entries => (k, ofDocument d) :: ofEntries entries

end

theorem toDocument_ofDocument (d : Document Scalar) : (ofDocument d).toDocument = d := by
  induction d using Document.induction with
  | hleaf s => cases s <;> rfl
  | hlist ds ih =>
    have hds : toDocuments (ofDocuments ds) = ds := by
      induction ds with
      | nil => rfl
      | cons d ds ihds =>
        obtain ⟨hd, hds⟩ := List.forall_mem_cons.mp ih
        rw [ofDocuments, toDocuments, hd, ihds hds]
    rw [ofDocument, toDocument, hds]
  | hmap entries ih =>
    have hents : toEntries (ofEntries entries) = entries := by
      induction entries with
      | nil => rfl
      | cons _ _ ihentries =>
        obtain ⟨he, hents⟩ := List.forall_mem_cons.mp ih
        rw [ofEntries, toEntries, he, ihentries hents]
    rw [ofDocument, toDocument, hents]

end Value

/-! ### The conversions -/

/-- The number of `From<serde_json::Value> for Value`. -/
def Number.ofJson (n : JsonNumber) : Number :=
  if let some f := n.asF64 then .float f
  else if let some n := n.asU64 then .int n.toInt64
  else if let some n := n.asI64 then .int n
  else .int 0

/-- The derived `Deserialize` of `Number`: the first variant that takes the number. An `f64` is
deserialised from every number. -/
def Number.deserialize (n : JsonNumber) : Number :=
  if let some i := n.asI64 then .int i
  else if let some f := n.asF64 then .float f
  else .int 0

/-- A leaf of a JSON value, its number being converted by `f`. -/
def Scalar.ofJson (f : JsonNumber → Number) : JsonScalar → Scalar
  | .null => .null
  | .bool b => .bool b
  | .number n => .number (f n)
  | .string s => .string s

/-- `From<serde_json::Value> for Value`. -/
def Value.ofJson (j : Json) : Value := .ofDocument (j.mapLeaves (Scalar.ofJson Number.ofJson))

/-- The derived `Deserialize` of `Value`, from JSON. -/
def Value.deserialize (j : Json) : Value :=
  .ofDocument (j.mapLeaves (Scalar.ofJson Number.deserialize))

/-- A leaf of a TOML value. -/
def Scalar.ofToml : TomlScalar → Scalar
  | .string s => .string s
  | .integer i => .number (.int i)
  | .float f => .number (.float f)
  | .boolean b => .bool b
  | .datetime d => .string d

/-- `From<toml::Value> for Value`. -/
def Value.ofToml (t : Toml) : Value := .ofDocument (t.mapLeaves Scalar.ofToml)

/-- A leaf of a value, as JSON. -/
def Scalar.toJson : Scalar → Outcome Empty JsonScalar
  | .null => .ok .null
  | .bool b => .ok (.bool b)
  | .number (.float f) =>
    match JsonNumber.fromF64 f with
    | some n => .ok (.number n)
    | none => .panic "called `Option::unwrap()` on a `None` value"
  | .number (.int i) => .ok (.number (.ofI64 i))
  | .string s => .ok (.string s)

/-- `From<Value> for serde_json::Value`. -/
def Value.toJson (v : Value) : Outcome Empty Json := v.toDocument.traverse Scalar.toJson

/-! ### One leaf -/

open Scalar

theorem exists_toJson_float {f : UInt64} :
    (∃ s, Scalar.toJson (.number (.float f)) = .ok s) ↔ F64.isFinite f = true := by
  simp only [toJson, JsonNumber.fromF64]
  split_ifs with hf <;> simp [hf]

variable (n : JsonNumber)

theorem JsonNumber.exists_asF64 : ∃ f, n.asF64 = some f ∧ F64.isFinite f = true := by
  cases n with
  | posInt n =>
    have hn := n.toNat_lt
    exact ⟨_, rfl, F64.isFinite_ofInt (by omega)⟩
  | negInt i h =>
    have hlower := i.le_toInt
    have hupper := i.toInt_lt
    exact ⟨_, rfl, F64.isFinite_ofInt (by omega)⟩
  | float bits h => exact ⟨bits, rfl, h⟩

theorem Number.exists_ofJson : ∃ f, Number.ofJson n = .float f ∧ F64.isFinite f = true := by
  obtain ⟨f, hf, hfinite⟩ := n.exists_asF64
  exact ⟨f, by rw [Number.ofJson, hf], hfinite⟩

theorem toJson_ofJson_number :
    ∃ f h, Scalar.toJson (.number (.ofJson n)) = .ok (.number (.float f h)) := by
  obtain ⟨f, hf, hfinite⟩ := Number.exists_ofJson n
  refine ⟨f, hfinite, ?_⟩
  rw [hf]
  simp only [toJson, JsonNumber.fromF64]
  rw [dif_pos hfinite]

theorem exists_toJson_ofJson {f : JsonNumber → Number}
    (hf : ∀ n, ∃ s, Scalar.toJson (.number (f n)) = .ok s) (s : JsonScalar) :
    ∃ s', (Scalar.ofJson f s).toJson = .ok s' := by
  cases s with
  | number n => exact hf n
  | _ => exact ⟨_, rfl⟩

theorem exists_toJson_number_ofJson : ∃ s, Scalar.toJson (.number (.ofJson n)) = .ok s := by
  obtain ⟨f, h, heq⟩ := toJson_ofJson_number n
  exact ⟨_, heq⟩

theorem exists_toJson_number_deserialize :
    ∃ s, Scalar.toJson (.number (.deserialize n)) = .ok s := by
  rcases hint : n.asI64 with _ | i
  · obtain ⟨f, hf, hfinite⟩ := n.exists_asF64
    simp only [Number.deserialize, hint, hf]
    exact exists_toJson_float.mpr hfinite
  · simp only [Number.deserialize, hint]
    exact ⟨_, rfl⟩

theorem toJson_ofJson_eq_self {s : JsonScalar}
    (hs : ∀ n, s = .number n → n.asI64.isSome = true) :
    (Scalar.ofJson Number.ofJson s).toJson = .ok s ↔ ∀ n, s ≠ .number n := by
  cases s with
  | null | bool b | string s => simp [ofJson, toJson]
  | number n =>
    refine iff_of_false (fun hsame => ?_) fun hnone => hnone n rfl
    obtain ⟨f, h, heq⟩ := toJson_ofJson_number n
    rw [ofJson, heq] at hsame
    cases hsame
    exact Bool.false_ne_true (hs _ rfl)

theorem exists_toJson_ofToml {s : TomlScalar} :
    (∃ s', (Scalar.ofToml s).toJson = .ok s') ↔ ∀ f, s = .float f → F64.isFinite f = true := by
  cases s with
  | float f => simpa [ofToml] using exists_toJson_float
  | _ => exact iff_of_true ⟨_, rfl⟩ (by simp)

/-! ### Whole values -/

theorem Value.toJson_ofDocument {α : Type} (f : α → Scalar) (d : Document α) :
    (Value.ofDocument (d.mapLeaves f)).toJson = d.traverse fun a => (f a).toJson := by
  rw [Value.toJson, Value.toDocument_ofDocument, Document.traverse_mapLeaves]

/-- The numbers of a JSON value are integers in the range of `i64`. -/
def Json.Integers (j : Json) : Prop := ∀ s ∈ j.leaves, ∀ n, s = .number n → n.asI64.isSome = true

/-- What an integer-typed field of a scope object is deserialised from: the number at the end of a
path. -/
def Json.deserializeI64 (path : List Document.Step) (j : Json) : Option Int64 :=
  match j.at? path with
  | some (.leaf (.number n)) => n.asI64
  | _ => none

/-- A JSON value survives the way to a `Value` and back: it is the same value, and the fields that
could be deserialised before are those that can be deserialised now. -/
def Json.Survives (j : Json) (convert : Json → Value) : Prop :=
  ∃ j', (convert j).toJson = .ok j' ∧ j' = j ∧
    ∀ path, (j'.deserializeI64 path).isSome = (j.deserializeI64 path).isSome

theorem Json.survives_iff {j : Json} {convert : Json → Value} :
    j.Survives convert ↔ (convert j).toJson = .ok j := by
  constructor
  · rintro ⟨j', hj', hsame, -⟩
    rw [hj', hsame]
  · intro hj
    exact ⟨j, hj, rfl, fun _ => rfl⟩

/-- **Scope values through the conversions.** A JSON value of integers survives exactly when it has
no number at all. No value of JSON panics, and a value of TOML does exactly when it has a float that
is not finite. -/
theorem scopeValues_survive_iff {j : Json} (hj : j.Integers) (document : Json) (t : Toml) :
    (j.Survives Value.ofJson ↔ ∀ n, .number n ∉ j.leaves) ∧
      ((∃ j', (Value.ofJson document).toJson = .ok j') ∧
        ∃ j', (Value.deserialize document).toJson = .ok j') ∧
      ((∃ j', (Value.ofToml t).toJson = .ok j') ↔
        ∀ f, .float f ∈ t.leaves → F64.isFinite f = true) := by
  refine ⟨?_, ?_, ?_⟩
  · rw [Json.survives_iff, Value.ofJson, Value.toJson_ofDocument, Document.traverse_eq_self]
    constructor
    · intro hsame n hn
      exact (toJson_ofJson_eq_self (hj _ hn)).mp (hsame _ hn) n rfl
    · intro hnone s hs
      exact (toJson_ofJson_eq_self (hj s hs)).mpr fun n hn => hnone n (hn ▸ hs)
  · rw [Value.ofJson, Value.deserialize, Value.toJson_ofDocument, Value.toJson_ofDocument,
      Document.exists_traverse_eq_ok, Document.exists_traverse_eq_ok]
    exact ⟨fun s _ => exists_toJson_ofJson exists_toJson_number_ofJson s,
      fun s _ => exists_toJson_ofJson exists_toJson_number_deserialize s⟩
  · rw [Value.ofToml, Value.toJson_ofDocument, Document.exists_traverse_eq_ok]
    simp only [exists_toJson_ofToml]
    exact ⟨fun h f hf => h _ hf f rfl, fun h s hs f hf => h f (hf ▸ hs)⟩

/-- A scope of texts survives, and a TOML file with the number 5 does not panic. -/
theorem scopeValues_survive_text :
    Json.Survives (.list [.leaf (.string "$HOME/**")]) Value.ofJson ∧
      ∃ j, (Value.ofToml (.map [("size", .leaf (.integer 5))])).toJson = .ok j := by
  have hintegers : Json.Integers (.list [.leaf (.string "$HOME/**")]) := by
    intro s hs n hn
    cases List.mem_singleton.mp hs
    cases hn
  obtain ⟨hsurvives, -, htoml⟩ := scopeValues_survive_iff hintegers (.leaf .null)
    (.map [("size", .leaf (.integer 5))])
  refine ⟨hsurvives.mpr fun n hn => ?_, htoml.mpr fun f hf => ?_⟩
  · cases List.mem_singleton.mp hn
  · cases List.mem_singleton.mp hf

/-- The integer 5 of a JSON value is no integer when it comes back, and a TOML value with an
infinity panics. -/
theorem scopeValues_not_survive :
    Json.deserializeI64 [.key "size"] (.map [("size", .leaf (.number (.posInt 5)))]) = some 5 ∧
      (∃ j, (Value.ofJson (.map [("size", .leaf (.number (.posInt 5)))])).toJson = .ok j ∧
        Json.deserializeI64 [.key "size"] j = none) ∧
      (Value.ofToml (.leaf (.float 0x7ff0000000000000))).toJson =
        .panic "called `Option::unwrap()` on a `None` value" := by
  refine ⟨by decide, ⟨.map [("size", .leaf (.number (.float 0x4014000000000000 (by decide))))],
    rfl, rfl⟩, rfl⟩

end Tauri.Acl
