import GoSecrets.Convert
import GoSecrets.Fragment

/-! The snapshot rendering valueToBytes (watcher.go) against the conversion setField
(resolver.go). setField hands the bytes of a TextUnmarshaler type to its UnmarshalText,
while valueToBytes renders a value by its kind and knows nothing of MarshalText: a struct
renders as `<T Value>`. -/
namespace GoSecrets

open Fragment

/-- `type Level struct{ n int }`, whose `*Level` implements encoding.TextUnmarshaler. -/
def levelType : GoType :=
  .named ⟨"main.Level", true⟩ (.struct [(⟨"n", false, false, none⟩, .int 64)])

/-- `func (l *Level) UnmarshalText(b []byte) (err error) { l.n, err = strconv.Atoi(string(b)); return }`;
no other type of the program implements the interface. -/
def levelUnmarshalText (t : GoType) (raw : Bytes) (v : Value) : Value × Option GoError :=
  if t.name = "main.Level" then
    match atoi raw with
    | some n => (.struct [.int n], none)
    | none => (.struct [.int 0], some (.wrap "strconv.Atoi: parsing" (some raw) (.other "invalid syntax")))
  else (v, some (.other "UnmarshalText"))

/-- A library whose only TextUnmarshaler is Level. -/
def levelLib : Lib := { Lib.stringsOnly with unmarshalText := levelUnmarshalText }

/-- Converting the rendering of any Level back fails, into a Level slot or a `*Level` one:
the Level slot is left at Level{0}, the pointer slot as it was. -/
theorem setField_level_rendering_fails (n : Int) (v : Value) :
    setField levelLib "L" levelType (valueToBytes levelLib levelType (.struct [.int n])) v =
      (.struct [.int 0], some (.conversion "L" "main.Level" (ascii "<main.Level Value>")
        (.wrap "strconv.Atoi: parsing" (some (ascii "<main.Level Value>")) (.other "invalid syntax")))) ∧
    setField levelLib "L" (.ptr levelType) (valueToBytes levelLib (.ptr levelType) (.ptr (some (.struct [.int n])))) v =
      (v, some (.conversion "L" "main.Level" (ascii "<main.Level Value>")
        (.wrap "strconv.Atoi: parsing" (some (ascii "<main.Level Value>")) (.other "invalid syntax")))) :=
  ⟨rfl, rfl⟩

end GoSecrets
