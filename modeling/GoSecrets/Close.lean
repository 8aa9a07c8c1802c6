import GoSecrets.Basic
import Mathlib.Data.List.Nodup

/-! Resolver.Close (resolver.go), which is closeProviders (secrets.go): the default provider
is closed first if it implements io.Closer, then each provider bound to a scheme, in the
providers map's iteration order, unless `seen` already holds it. `seen` is a map keyed by
the provider interface value, so each lookup and store hashes the value, which panics when
its dynamic type is not comparable (a func, map or slice type). -/
namespace GoSecrets.Close

/-- A provider as an interface value: its dynamic type, whether that type is comparable, its
value, and, when the type implements io.Closer, the error its Close returns. Two interface
values are `==` when all of this agrees. -/
structure Boxed where
  typeName : String
  comparable : Bool
  value : Nat
  close : Option (Option GoError)
deriving DecidableEq, Repr

/-- The error a Close call returns, as a list; empty for a provider without Close. -/
def Boxed.errs (p : Boxed) : List GoError := (p.close.getD none).toList

/-- Hashing `p` as a key of `seen`. -/
def hash (p : Boxed) : Except String Unit :=
  if p.comparable then .ok () else .error ("runtime error: hash of unhashable type " ++ p.typeName)

/-- The Close call on `p` if it implements io.Closer: the calls made so far and the errors
errors.Join will receive. -/
def closeOne (acc : List Boxed × List GoError) (p : Boxed) : List Boxed × List GoError :=
  match p.close with
  | some e => (acc.1 ++ [p], acc.2 ++ e.toList)
  | none => acc

/-- The loop over the scheme bindings in map order, from the providers `seen` holds. -/
def closeBound : List Boxed → List Boxed × List GoError → List Boxed →
    Except String (List Boxed × List GoError)
  | _, acc, [] => .ok acc
  | seen, acc, p :: ps => do
    hash p
    if p ∈ seen then closeBound seen acc ps
    else closeBound (p :: seen) (closeOne acc p) ps

/-- closeProviders: a panic with its message, or the Close calls made, in order, and the
errors it joins. -/
def closeProviders (dflt : Option Boxed) (bound : List Boxed) :
    Except String (List Boxed × List GoError) :=
  match dflt with
  | some d =>
    if d.close.isSome then do
      hash d
      closeBound [d] (closeOne ([], []) d) bound
    else closeBound [] ([], []) bound
  | none => closeBound [] ([], []) bound

theorem closeBound_cons_of_comparable (seen : List Boxed) (acc : List Boxed × List GoError)
    {p : Boxed} (ps : List Boxed) (hp : p.comparable = true) :
    closeBound seen acc (p :: ps) =
      if p ∈ seen then closeBound seen acc ps else closeBound (p :: seen) (closeOne acc p) ps := by
  simp only [closeBound, hash, hp, if_true]
  rfl

theorem closeBound_cons_of_not_comparable (seen : List Boxed) (acc : List Boxed × List GoError)
    {p : Boxed} (ps : List Boxed) (hp : p.comparable = false) :
    closeBound seen acc (p :: ps) = .error ("runtime error: hash of unhashable type " ++ p.typeName) := by
  simp only [closeBound, hash, hp, Bool.false_eq_true, if_false]
  rfl

/-- `type ProviderFunc func(context.Context, string) ([]byte, error)` with a Get method: a
func type, which is not comparable. -/
def providerFunc : Boxed := ⟨"main.ProviderFunc", false, 0, none⟩

/-- The loop panics once it reaches a provider that cannot be hashed. -/
theorem closeBound_panics {p : Boxed} (hp : p.comparable = false) (post : List Boxed) :
    ∀ (pre seen : List Boxed) (acc : List Boxed × List GoError),
      ∃ msg, closeBound seen acc (pre ++ p :: post) = .error msg
  | [], seen, acc => ⟨_, closeBound_cons_of_not_comparable seen acc post hp⟩
  | q :: pre, seen, acc => by
    cases hq : q.comparable
    · exact ⟨_, closeBound_cons_of_not_comparable seen acc _ hq⟩
    · rw [List.cons_append, closeBound_cons_of_comparable seen acc _ hq]
      split
      · exact closeBound_panics hp post pre seen acc
      · exact closeBound_panics hp post pre (q :: seen) (closeOne acc q)

/-- Close panics when a ProviderFunc is bound to a scheme, whatever the default provider,
the other bindings and the map's iteration order. -/
theorem close_panics_on_func_provider (dflt : Option Boxed) (pre post : List Boxed) :
    ∃ msg, closeProviders dflt (pre ++ providerFunc :: post) = .error msg := by
  have hp : providerFunc.comparable = false := rfl
  unfold closeProviders
  split
  · rename_i d
    split
    · cases hd : d.comparable
      · exact ⟨_, by simp only [hash, hd, Bool.false_eq_true, if_false]; rfl⟩
      · obtain ⟨msg, h⟩ := closeBound_panics hp post pre [d] (closeOne ([], []) d)
        exact ⟨msg, by simp only [hash, hd, if_true]; exact h⟩
    · exact closeBound_panics hp post pre [] ([], [])
  · exact closeBound_panics hp post pre [] ([], [])

/-! ### Comparable providers -/

/-- What the loop keeps: each Close call made once, on a provider seen; every Closer seen has
been called; the errors are those of the calls, in order. -/
structure Inv (seen : List Boxed) (acc : List Boxed × List GoError) : Prop where
  nodup : acc.1.Nodup
  called : ∀ p ∈ acc.1, p ∈ seen ∧ p.close.isSome
  closers : ∀ p ∈ seen, p.close.isSome → p ∈ acc.1
  errs : acc.2 = acc.1.flatMap Boxed.errs

end GoSecrets.Close
