import GoSecrets.Types
import GoSecrets.Json

/-! Conversions between secret bytes and field values: setField (resolver.go) and the
snapshot rendering valueToBytes / fieldToBytes (watcher.go). The strconv and time
routines and the types' own UnmarshalText methods are parameters; the dispatch on kinds,
the pointer handling and the error values are the repository's. -/
namespace GoSecrets

open Json

/-- The library routines the conversions call. -/
structure Lib extends FloatLib where
  /-- strings.TrimSpace. -/
  trimSpace : Bytes → Bytes
  /-- strconv.ParseBool. -/
  parseBool : Bytes → Except GoError Bool
  /-- strconv.ParseInt(s, 10, bits). -/
  parseInt : Bytes → Nat → Except GoError Int
  /-- strconv.ParseUint(s, 10, bits). -/
  parseUint : Bytes → Nat → Except GoError Nat
  /-- time.ParseDuration. -/
  parseDuration : Bytes → Except GoError Int
  /-- strconv.FormatUint(n, 10). -/
  formatUint : Nat → Bytes
  /-- time.Duration(n).String(). -/
  formatDuration : Int → Bytes
  /-- `(*T).UnmarshalText(raw)` on a value of type `T`: the value it leaves, which it
  may have changed before failing, and its error. -/
  unmarshalText : GoType → Bytes → Value → Value × Option GoError

/-- A library for records whose secret fields are strings and byte slices, which call
none of these routines: every parse fails and every rendering is empty. -/
def Lib.stringsOnly : Lib where
  parseFloat _ _ := .error (.other "strconv.ParseFloat")
  toInt64 _ := 0
  fromInt64 _ := 0
  eq a b := a == b
  formatFloat _ := []
  formatInt _ := []
  marshalFloat _ := []
  trimSpace s := s
  parseBool _ := .error (.other "strconv.ParseBool")
  parseInt _ _ := .error (.other "strconv.ParseInt")
  parseUint _ _ := .error (.other "strconv.ParseUint")
  parseDuration _ := .error (.other "time.ParseDuration")
  formatUint _ := []
  formatDuration _ := []
  unmarshalText _ _ v := (v, some (.other "UnmarshalText"))

/-! Reading a value of a known kind; a value of another shape reads as zero. -/

def Value.asBytes : Value → Bytes
  | .str s | .bytes s => s
  | _ => []

def Value.asBool : Value → Bool
  | .bool b => b
  | _ => false

def Value.asInt : Value → Int
  | .int n => n
  | _ => 0

def Value.asUint : Value → Nat
  | .uint n => n
  | _ => 0

def Value.asFloat : Value → Nat
  | .float x => x
  | _ => 0

section Conversion
variable (lib : Lib) (fieldName : String)

/-- The built-in conversion of setField for a type that is not a pointer: on an error
the field keeps the value `v` it had. -/
def setLeaf (t : GoType) (raw : Bytes) (v : Value) : Value × Option GoError :=
  let conv (e : GoError) : GoError := .conversion fieldName t.name raw e
  let s := lib.trimSpace raw
  if t.textUnmarshaler then
    let (v', err) := lib.unmarshalText t raw v
    (v', err.map conv)
  else
    match t.kind with
    | .string => (.str raw, none)
    | .slice => (.bytes raw, none)
    | .bool =>
      match lib.parseBool s with
      | .ok b => (.bool b, none)
      | .error e => (v, some (conv e))
    | .int =>
      if t = durationType then
        match lib.parseDuration s with
        | .ok d => (.int d, none)
        | .error e => (v, some (conv e))
      else
        match lib.parseInt s t.bits with
        | .ok n => (.int n, none)
        | .error e => (v, some (conv e))
    | .uint =>
      match lib.parseUint s t.bits with
      | .ok n => (.uint n, none)
      | .error e => (v, some (conv e))
    | .float =>
      match lib.toFloatLib.parseFloat s t.bits with
      | .ok x => (.float x, none)
      | .error e => (v, some (conv e))
    | _ => (v, some (.unsupportedType fieldName t.name))

/-- setField(fv, fieldName, raw): the field's new value and the error. A pointer field
gets a fresh pointee converted recursively, and is left alone if that fails. -/
def setField : GoType → Bytes → Value → Value × Option GoError
  | .ptr e, raw, v =>
    match setField e raw e.zero with
    | (x, none) => (.ptr (some x), none)
    | (_, some err) => (v, some err)
  | .named n u, raw, v =>
    if u.kind = .ptr then setField u raw v else setLeaf lib fieldName (.named n u) raw v
  | t, raw, v => setLeaf lib fieldName t raw v

/-- valueToBytes for a value that is not a pointer: `v.String()` for kinds without a
rendering of their own, which for a non-string kind is `<T Value>`. -/
def leafToBytes (t : GoType) (v : Value) : Bytes :=
  match t.kind with
  | .string | .slice => v.asBytes
  | .bool => if v.asBool then ascii "true" else ascii "false"
  | .int => if t = durationType then lib.formatDuration v.asInt else lib.formatInt v.asInt
  | .uint => lib.formatUint v.asUint
  | .float => lib.formatFloat v.asFloat
  | _ => ascii "<" ++ ascii t.name ++ ascii " Value>"

/-- valueToBytes: one pointer is followed, and a nil pointer renders as no bytes. -/
def valueToBytes (t : GoType) (v : Value) : Bytes :=
  match t.elem? with
  | some e =>
    match v with
    | .ptr (some x) => leafToBytes lib e x
    | _ => []
  | none => leafToBytes lib t v

/-- fieldToBytes: a Versioned field is rendered by its Current slot alone. -/
def fieldToBytes (t : GoType) (v : Value) (isVersioned : Bool) : Bytes :=
  if isVersioned then
    match t.fields, v.fieldsOf with
    | (_, t0) :: _, v0 :: _ => valueToBytes lib t0 v0
    | (_, t0) :: _, [] => valueToBytes lib t0 t0.zero
    | [], _ => []
  else valueToBytes lib t v

end Conversion

/-! A conversion run again on the text it was given leaves what it left the first time, as
long as every UnmarshalText does. -/

section Idempotence
variable (lib : Lib) (fieldName : String)
  (hu : ∀ t raw v, lib.unmarshalText t raw (lib.unmarshalText t raw v).1 = lib.unmarshalText t raw v)
include hu

/-- setLeaf on its own result: on success the same value, on an error the field's value
and the same error. -/
theorem setLeaf_idem (t : GoType) (raw : Bytes) (v : Value) :
    setLeaf lib fieldName t raw (setLeaf lib fieldName t raw v).1 = setLeaf lib fieldName t raw v := by
  by_cases ht : t.textUnmarshaler
  · simp only [setLeaf, ht, if_true, hu]
  · simp only [setLeaf, ht, Bool.false_eq_true, if_false]
    cases t.kind with
    | bool => cases lib.parseBool (lib.trimSpace raw) <;> rfl
    | int =>
      split_ifs
      · cases lib.parseDuration (lib.trimSpace raw) <;> rfl
      · cases lib.parseInt (lib.trimSpace raw) t.bits <;> rfl
    | uint => cases lib.parseUint (lib.trimSpace raw) t.bits <;> rfl
    | float => cases lib.parseFloat (lib.trimSpace raw) t.bits <;> rfl
    | _ => rfl

/-- setField on its own result gives that result again: a pointer's fresh pointee does not
depend on the old one. -/
theorem setField_idem : ∀ (t : GoType) (raw : Bytes) (v : Value),
    setField lib fieldName t raw (setField lib fieldName t raw v).1 = setField lib fieldName t raw v
  | .ptr e, raw, v => by
    simp only [setField]
    rcases setField lib fieldName e raw e.zero with ⟨x, _ | err⟩ <;> rfl
  | .named n u, raw, v => by
    simp only [setField]
    split
    · exact setField_idem u raw v
    · exact setLeaf_idem lib fieldName hu _ raw v
  | .string, raw, v | .bool, raw, v | .int _, raw, v | .uint _, raw, v | .float _, raw, v
  | .bytes, raw, v | .struct _, raw, v | .other _, raw, v => by
    simp only [setField]; exact setLeaf_idem lib fieldName hu _ raw v

end Idempotence

end GoSecrets
