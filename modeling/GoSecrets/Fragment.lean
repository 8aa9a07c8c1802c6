import GoSecrets.Json
import GoSecrets.Tag
import Mathlib.Algebra.Group.Nat.Basic
import Mathlib.Algebra.Group.Int

/-! extractFragment (fragment.go): decode the secret as JSON, walk a dot-separated path
through objects and arrays, and render the leaf. The path is split on every `.`, so a
key that contains a dot cannot be addressed. -/
namespace GoSecrets.Fragment

open Json

/-- The decimal value of a run of digits. -/
def digitsValue (ds : Bytes) : Nat := ds.foldl (fun n d => 10 * n + (d.toNat - 48)) 0

/-- strconv.Atoi: an optional sign and at least one decimal digit, within int64 range. -/
def atoi (s : Bytes) : Option Int :=
  let (neg, ds) : Bool × Bytes :=
    match s with
    | 43 :: ds => (false, ds)
    | 45 :: ds => (true, ds)
    | ds => (false, ds)
  if ds ≠ [] ∧ ds.all isDigit then
    let n : Int := if neg then -(digitsValue ds : Int) else digitsValue ds
    if -2 ^ 63 ≤ n ∧ n < 2 ^ 63 then some n else none
  else none

/-- One path component: a map key, or an array index. -/
def descend (path : Bytes) (current : JsonValue) (part : Bytes) : Except GoError JsonValue :=
  match current with
  | .object kvs =>
    match kvs.lookup part with
    | some v => .ok v
    | none => .error (.fragmentNotFound path)
  | .array xs =>
    match atoi part with
    | none => .error (.badIndex path part)
    | some idx =>
      match (if idx < 0 then none else xs.get? idx.toNat) with
      | some v => .ok v
      | none => .error (.indexOutOfRange path idx xs.length)
  | v => .error (.cannotIndex path v.typeName)

section Leaf
variable (fl : FloatLib)

/-- The bytes of the final value: a string as is, an integral float without a fraction,
`true`, `false`, `null`, and objects and arrays marshaled again. -/
def leafBytes : JsonValue → Bytes
  | .string s => s
  | .number x =>
    if fl.eq x (fl.fromInt64 (fl.toInt64 x)) then fl.formatInt (fl.toInt64 x)
    else fl.formatFloat x
  | .bool true => ascii "true"
  | .bool false => ascii "false"
  | .null => ascii "null"
  | v => marshal fl v

/-- extractFragment(data, path). -/
def extractFragment (data path : Bytes) : Except GoError Bytes := do
  let root ← match unmarshal fl data with
    | some v => .ok v
    | none => .error .invalidJSON
  let leaf ← (path.splitOn (byte '.')).foldlM (descend path) root
  pure (leafBytes fl leaf)

end Leaf

end GoSecrets.Fragment
