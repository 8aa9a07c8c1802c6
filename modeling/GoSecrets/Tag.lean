import GoSecrets.Basic
import Mathlib.Data.List.Basic

/-! The tag grammar (tag.go): parseTag and parsedTag.URI, over the byte-level string
functions they call (strings.Split with a one-byte separator, strings.LastIndex,
strings.Cut, strings.HasPrefix). -/
namespace GoSecrets

/-- The byte of an ASCII character. -/
def byte (c : Char) : UInt8 := c.toNat.toUInt8

/-- strings.Cut(s, sep): the bytes before and after the first occurrence of `sep`. -/
def cut (sep : Bytes) (s : Bytes) : Option (Bytes × Bytes) :=
  if sep.isPrefixOf s then some ([], s.drop sep.length)
  else
    match s with
    | [] => none
    | b :: bs => (cut sep bs).map fun p => (b :: p.1, p.2)

/-- Cut at a one-byte separator: the bytes before its first occurrence, and the rest. -/
theorem cut_single_eq_some {c : UInt8} : ∀ {s a b : Bytes},
    cut [c] s = some (a, b) ↔ s = a ++ c :: b ∧ c ∉ a
  | [], a, b => by simp [cut]
  | x :: s, a, b => by
    by_cases hx : x = c
    · subst hx
      rw [show cut [x] (x :: s) = some ([], s) by simp [cut]]
      constructor
      · rintro ⟨⟩
        exact ⟨rfl, List.not_mem_nil x⟩
      · rintro ⟨h, hn⟩
        cases a with
        | nil =>
          obtain ⟨-, rfl⟩ := List.cons.inj h
          rfl
        | cons y a =>
          simp only [List.cons_append, List.cons.injEq] at h
          exact absurd (h.1 ▸ .head _) hn
    · rw [show cut [c] (x :: s) = (cut [c] s).map fun p => (x :: p.1, p.2) by simp [cut, Ne.symm hx],
        Option.map_eq_some']
      constructor
      · rintro ⟨⟨a', b'⟩, h, he⟩
        obtain ⟨rfl, rfl⟩ := Prod.mk.inj he
        obtain ⟨rfl, hn⟩ := cut_single_eq_some.mp h
        exact ⟨rfl, by simp [hn, Ne.symm hx]⟩
      · rintro ⟨h, hn⟩
        cases a with
        | nil => exact absurd (List.cons.inj h).1 hx
        | cons y a =>
          obtain ⟨rfl, rfl⟩ := List.cons.inj h
          exact ⟨(a, b), cut_single_eq_some.mpr ⟨rfl, fun h' => hn (.tail _ h')⟩, rfl⟩

/-- `idx := strings.LastIndex(s, c)`, then `(s[:idx], s[idx+1:])`. -/
def cutLast (c : UInt8) : Bytes → Option (Bytes × Bytes)
  | [] => none
  | b :: bs =>
    match cutLast c bs with
    | some p => some (b :: p.1, p.2)
    | none => if b = c then some ([], bs) else none

structure ParsedTag where
  scheme : Bytes
  key : Bytes
  fragment : Bytes
  optional : Bool
  version : Bytes
deriving DecidableEq, Repr

/-- One option after the first comma: `optional`, or `version=X` (the last one wins). -/
def applyOption (t : ParsedTag) (opt : Bytes) : Except GoError ParsedTag :=
  if opt = ascii "optional" then .ok { t with optional := true }
  else if (ascii "version=").isPrefixOf opt then .ok { t with version := opt.drop 8 }
  else .error (.unknownOption opt)

/-- The URI part of parseTag: the fragment after the last `#`, then the scheme before
the first `://`; without `://` the whole rest is the key. -/
def parseURI (t : ParsedTag) (uri : Bytes) : ParsedTag :=
  let (uri, t) :=
    match cutLast (byte '#') uri with
    | some (u, frag) => (u, { t with fragment := frag })
    | none => (uri, t)
  match cut (ascii "://") uri with
  | some (scheme, rest) => { t with scheme := scheme, key := rest }
  | none => { t with key := uri }

/-- parseTag: split on `,`, apply the options, then the URI; the key must not be empty. -/
def parseTag (raw : Bytes) : Except GoError ParsedTag :=
  if raw = [] then .error .emptyTag
  else
    match (raw.splitOn (byte ',')).tail.foldlM applyOption ⟨[], [], [], false, []⟩ with
    | .error e => .error e
    | .ok t =>
      let t := parseURI t ((raw.splitOn (byte ',')).headD [])
      if t.key = [] then .error (.emptyKey raw) else .ok t

/-- parsedTag.URI: `scheme://key`, or the bare key. -/
def ParsedTag.uri (t : ParsedTag) : Bytes :=
  if t.scheme ≠ [] then t.scheme ++ ascii "://" ++ t.key else t.key

example : parseTag (ascii "db#password,optional,version=2") =
    .ok ⟨[], ascii "db", ascii "password", true, ascii "2"⟩ := rfl

example : parseTag (ascii "://a://b") = .ok ⟨[], ascii "a://b", [], false, []⟩ := rfl

end GoSecrets
