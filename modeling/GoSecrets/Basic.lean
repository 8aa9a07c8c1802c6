import Mathlib.Logic.Function.Basic
import Mathlib.Data.List.Basic

/-! Go byte strings, the error values of package `secrets`, and the provider contract
(secrets.go, errors.go). Go `string` and `[]byte` are both byte lists here, so that NUL
bytes and invalid UTF-8 stay expressible. -/
namespace GoSecrets

/-- A Go `string` or `[]byte`: a sequence of bytes. -/
abbrev Bytes := List UInt8

/-- An ASCII literal as bytes, for writing keys and tags. -/
def ascii (s : String) : Bytes := s.toList.map (fun c => c.toNat.toUInt8)

/-- The error values the package creates or passes through. `notFound` is any error
whose chain reaches `ErrNotFound`; `other` is any other error a provider or a library
routine returns. `field` is `fmt.Errorf("secrets: field %s: %w", name, err)`; `wrap` is a
provider's `fmt.Errorf(text + " %q: %w", arg, err)`, or `text + ": %w"` without an argument;
`quoted` is `fmt.Errorf(text + " %q" + rest, arg)`, which wraps no error. -/
inductive GoError where
  | notFound (text : String)
  | other (text : String)
  | emptyTag
  | unknownOption (opt : Bytes)
  | emptyKey (raw : Bytes)
  | noDefaultProvider (field : String) (key : Bytes)
  | unknownProvider (field : String) (scheme uri : Bytes)
  | conversion (field typeName : String) (raw : Bytes) (err : GoError)
  | unsupportedType (field typeName : String)
  | versioningNotSupported (field : String) (provider : Bytes)
  | invalidJSON
  | fragmentNotFound (path : Bytes)
  | badIndex (path part : Bytes)
  | indexOutOfRange (path : Bytes) (idx : Int) (len : Nat)
  | cannotIndex (path : Bytes) (typeName : String)
  | field (name : String) (err : GoError)
  | wrap (text : String) (arg : Option Bytes) (err : GoError)
  | quoted (text : String) (arg : Bytes) (rest : String)
deriving DecidableEq, Repr

/-- `errors.Is(err, ErrNotFound)`: follows `%w` wrapping and `ErrConversion.Unwrap`. -/
def GoError.isNotFound : GoError → Bool
  | .notFound _ => true
  | .conversion _ _ _ e => e.isNotFound
  | .field _ e => e.isNotFound
  | .wrap _ _ e => e.isNotFound
  | _ => false

/-- What a provider call returns: the secret's bytes or an error. -/
abbrev Outcome := Except GoError Bytes

instance instDecidableEqExcept {ε α : Type} [DecidableEq ε] [DecidableEq α] :
    DecidableEq (Except ε α)
  | .error a, .error b => decidable_of_iff (a = b) ⟨congrArg _, Except.error.inj⟩
  | .ok a, .ok b => decidable_of_iff (a = b) ⟨congrArg _, Except.ok.inj⟩
  | .error _, .ok _ => isFalse Except.noConfusion
  | .ok _, .error _ => isFalse Except.noConfusion

/-- A provider as the resolver sees it (secrets.go `Provider`, `VersionedProvider`):
`Get`, and `GetVersion` exactly when it implements VersionedProvider. The context
argument is forwarded verbatim and is left out; cancellation shows as an error. -/
structure Provider where
  get : Bytes → Outcome
  getVersion : Option (Bytes → Bytes → Outcome)

end GoSecrets
