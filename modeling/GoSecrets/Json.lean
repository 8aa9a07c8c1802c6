import GoSecrets.Basic
import Mathlib.Data.List.Basic

/-! The parts of Go's standard library that extractFragment and the k8s provider rely on:
`unicode/utf8` decoding and encoding, and `encoding/json` for `any` values (the scanner's
grammar, string unquoting, and the string encoder with HTML escaping). Float conversions
are parameters: every statement here holds for any of them. -/
namespace GoSecrets.Json

/-- utf8.RuneError, U+FFFD. -/
def runeError : Nat := 0xFFFD

/-- The size and the accepted range of the second byte, by the first byte of a multi-byte
encoding (utf8's `first` and `acceptRanges` tables); none for a byte that starts none. -/
def leadInfo (x : Nat) : Option (Nat × Nat × Nat) :=
  if 0xC2 ≤ x ∧ x ≤ 0xDF then some (2, 0x80, 0xBF)
  else if x = 0xE0 then some (3, 0xA0, 0xBF)
  else if 0xE1 ≤ x ∧ x ≤ 0xEC then some (3, 0x80, 0xBF)
  else if x = 0xED then some (3, 0x80, 0x9F)
  else if 0xEE ≤ x ∧ x ≤ 0xEF then some (3, 0x80, 0xBF)
  else if x = 0xF0 then some (4, 0x90, 0xBF)
  else if 0xF1 ≤ x ∧ x ≤ 0xF3 then some (4, 0x80, 0xBF)
  else if x = 0xF4 then some (4, 0x80, 0x8F)
  else none

/-- A continuation byte, `locb..hicb`. -/
def isCont (b : UInt8) : Bool := 0x80 ≤ b.toNat && b.toNat ≤ 0xBF

/-- utf8.DecodeRune: the rune at the start of `p` and its size; `(RuneError, 1)` for an
invalid or truncated encoding, `(RuneError, 0)` for no input. -/
def decodeRune : Bytes → Nat × Nat
  | [] => (runeError, 0)
  | b0 :: rest =>
    let x := b0.toNat
    if x < 0x80 then (x, 1)
    else
      match leadInfo x with
      | none => (runeError, 1)
      | some (sz, lo, hi) =>
        if rest.length + 1 < sz then (runeError, 1)
        else
          match rest with
          | [] => (runeError, 1)
          | b1 :: rest =>
            if b1.toNat < lo || hi < b1.toNat then (runeError, 1)
            else if sz ≤ 2 then (x % 32 * 64 + b1.toNat % 64, 2)
            else
              match rest with
              | [] => (runeError, 1)
              | b2 :: rest =>
                if !isCont b2 then (runeError, 1)
                else if sz ≤ 3 then (x % 16 * 4096 + b1.toNat % 64 * 64 + b2.toNat % 64, 3)
                else
                  match rest with
                  | [] => (runeError, 1)
                  | b3 :: _ =>
                    if !isCont b3 then (runeError, 1)
                    else (x % 8 * 262144 + b1.toNat % 64 * 4096 + b2.toNat % 64 * 64 +
                      b3.toNat % 64, 4)

/-- utf8.EncodeRune: surrogates and runes past U+10FFFF become RuneError. -/
def encodeRune (r : Nat) : Bytes :=
  if r ≤ 0x7F then [r.toUInt8]
  else if r ≤ 0x7FF then [(0xC0 + r / 64).toUInt8, (0x80 + r % 64).toUInt8]
  else
    let r := if 0x10FFFF < r ∨ (0xD800 ≤ r ∧ r ≤ 0xDFFF) then runeError else r
    if r ≤ 0xFFFF then
      [(0xE0 + r / 4096).toUInt8, (0x80 + r / 64 % 64).toUInt8, (0x80 + r % 64).toUInt8]
    else
      [(0xF0 + r / 262144).toUInt8, (0x80 + r / 4096 % 64).toUInt8,
        (0x80 + r / 64 % 64).toUInt8, (0x80 + r % 64).toUInt8]

/-- A Unicode scalar value: at most U+10FFFF, and not a surrogate. -/
def IsScalar (r : Nat) : Prop := r ≤ 0x10FFFF ∧ ¬(0xD800 ≤ r ∧ r ≤ 0xDFFF)

/-- Valid UTF-8 (utf8.Valid): the encoding of a sequence of scalar values. -/
inductive ValidUTF8 : Bytes → Prop where
  | nil : ValidUTF8 []
  | cons {r : Nat} {rest : Bytes} : IsScalar r → ValidUTF8 rest → ValidUTF8 (encodeRune r ++ rest)

/-! ### The string encoder (encoding/json `appendString`, HTML escaping on) -/

/-- The lowercase hex digit of `n < 16`. -/
def hexDigit (n : Nat) : UInt8 := (if n < 10 then 48 + n else 87 + n).toUInt8

/-- htmlSafeSet: printable ASCII and DEL, except `"`, `\`, `<`, `>` and `&`. -/
def htmlSafe (b : UInt8) : Bool :=
  0x20 ≤ b.toNat && b.toNat < 0x80 && b != 34 && b != 92 && b != 60 && b != 62 && b != 38

/-- The escape written for an ASCII byte outside htmlSafeSet. -/
def escapeByte (b : UInt8) : Bytes :=
  if b = 92 ∨ b = 34 then [92, b]
  else if b = 8 then [92, 98]
  else if b = 12 then [92, 102]
  else if b = 10 then [92, 110]
  else if b = 13 then [92, 114]
  else if b = 9 then [92, 116]
  else [92, 117, 48, 48, hexDigit (b.toNat / 16), hexDigit (b.toNat % 16)]

/-- The body of appendString, one ASCII byte or one rune at a time; `fuel` bounds the
number of steps, and the input's length is enough. -/
def encodeBody : Nat → Bytes → Bytes
  | 0, _ => []
  | _ + 1, [] => []
  | n + 1, b :: rest =>
    if b.toNat < 0x80 then (if htmlSafe b then [b] else escapeByte b) ++ encodeBody n rest
    else
      let d := decodeRune (b :: rest)
      if d.1 = runeError ∧ d.2 = 1 then ascii "\\ufffd" ++ encodeBody n rest
      else if d.1 = 0x2028 ∨ d.1 = 0x2029 then
        ascii "\\u202" ++ [hexDigit (d.1 % 16)] ++ encodeBody n ((b :: rest).drop d.2)
      else (b :: rest).take d.2 ++ encodeBody n ((b :: rest).drop d.2)

/-- The JSON string literal json.Marshal writes for a Go string. -/
def encodeString (s : Bytes) : Bytes := [34] ++ encodeBody s.length s ++ [34]

/-! ### The decoder for `any` (encoding/json `checkValid`, then `unquote` and `value`) -/

def isWs (b : UInt8) : Bool := b = 32 || b = 9 || b = 10 || b = 13

def skipWs (s : Bytes) : Bytes := s.dropWhile isWs

def hexVal (c : UInt8) : Option Nat :=
  if 48 ≤ c.toNat ∧ c.toNat ≤ 57 then some (c.toNat - 48)
  else if 97 ≤ c.toNat ∧ c.toNat ≤ 102 then some (c.toNat - 87)
  else if 65 ≤ c.toNat ∧ c.toNat ≤ 70 then some (c.toNat - 55)
  else none

/-- getu4: the value of a `\uXXXX` escape at the start of `s`. -/
def getu4 : Bytes → Option Nat
  | 92 :: 117 :: a :: b :: c :: d :: _ => do
    let a ← hexVal a
    let b ← hexVal b
    let c ← hexVal c
    let d ← hexVal d
    pure (((a * 16 + b) * 16 + c) * 16 + d)
  | _ => none

/-- The scanner on a string literal after its opening quote: the literal's content and
what follows the closing quote. Control bytes and unknown escapes are syntax errors. -/
def scanString : Nat → Bytes → Option (Bytes × Bytes)
  | 0, _ => none
  | _ + 1, [] => none
  | n + 1, b :: rest =>
    if b = 34 then some ([], rest)
    else if b.toNat < 0x20 then none
    else if b = 92 then
      match rest with
      | [] => none
      | c :: rest' =>
        if c = 34 ∨ c = 92 ∨ c = 47 ∨ c = 98 ∨ c = 102 ∨ c = 110 ∨ c = 114 ∨ c = 116 then
          (scanString n rest').map fun p => (b :: c :: p.1, p.2)
        else if c = 117 ∧ (getu4 (b :: rest)).isSome then
          (scanString n (rest'.drop 4)).map fun p => (b :: c :: rest'.take 4 ++ p.1, p.2)
        else none
    else (scanString n rest).map fun p => (b :: p.1, p.2)

/-- utf16.DecodeRune of a surrogate pair, or RuneError. -/
def decodeSurrogates (r1 r2 : Nat) : Nat :=
  if 0xD800 ≤ r1 ∧ r1 < 0xDC00 ∧ 0xDC00 ≤ r2 ∧ r2 < 0xE000 then
    (r1 - 0xD800) * 0x400 + (r2 - 0xDC00) + 0x10000
  else runeError

/-- One escape of unquote, after the backslash `b`: the bytes it stands for and what
follows it. A `\u` escape of a lone surrogate stands for U+FFFD. -/
def unquoteEscape (b : UInt8) : Bytes → Option (Bytes × Bytes)
  | [] => none
  | c :: rest =>
    if c = 34 ∨ c = 92 ∨ c = 47 ∨ c = 39 then some ([c], rest)
    else if c = 98 then some ([8], rest)
    else if c = 102 then some ([12], rest)
    else if c = 110 then some ([10], rest)
    else if c = 114 then some ([13], rest)
    else if c = 116 then some ([9], rest)
    else if c = 117 then
      match getu4 (b :: c :: rest) with
      | none => none
      | some r =>
        let rest6 := rest.drop 4
        if 0xD800 ≤ r ∧ r < 0xE000 then
          match getu4 rest6 with
          | some r2 =>
            if decodeSurrogates r r2 ≠ runeError then
              some (encodeRune (decodeSurrogates r r2), rest6.drop 6)
            else some (encodeRune runeError, rest6)
          | none => some (encodeRune runeError, rest6)
        else some (encodeRune r, rest6)
    else none

/-- unquote on a literal's content: escapes decoded, each raw rune re-encoded, so that
every invalid byte becomes U+FFFD. -/
def unquote : Nat → Bytes → Option Bytes
  | 0, _ => none
  | _ + 1, [] => some []
  | n + 1, b :: rest =>
    if b = 92 then
      match unquoteEscape b rest with
      | some (d, rest) => (unquote n rest).map (d ++ ·)
      | none => none
    else if b = 34 ∨ b.toNat < 0x20 then none
    else if b.toNat < 0x80 then (unquote n rest).map (b :: ·)
    else
      let d := decodeRune (b :: rest)
      (unquote n ((b :: rest).drop d.2)).map (encodeRune d.1 ++ ·)

/-- A string literal after its opening quote: its decoded bytes and the rest. -/
def parseString (s : Bytes) : Option (Bytes × Bytes) := do
  let (lit, rest) ← scanString (s.length + 1) s
  let str ← unquote (lit.length + 1) lit
  pure (str, rest)

def isDigit (b : UInt8) : Bool := 48 ≤ b.toNat && b.toNat ≤ 57

/-- A nonempty run of digits: the run and the rest. -/
def digits (s : Bytes) : Option (Bytes × Bytes) :=
  match s.span isDigit with
  | ([], _) => none
  | p => some p

/-- The scanner's number grammar: `-? (0 | [1-9][0-9]*) (. [0-9]+)? ([eE] [+-]? [0-9]+)?`. -/
def scanNumber (s : Bytes) : Option (Bytes × Bytes) := do
  let (sign, s) : Bytes × Bytes := match s with
    | 45 :: s => ([45], s)
    | s => ([], s)
  let (int, s) ← match s with
    | 48 :: s => some ([48], s)
    | s => match digits s with
      | some (d :: ds, s) => some (d :: ds, s)
      | _ => none
  let (frac, s) ← match s with
    | 46 :: s => (digits s).map fun p => (46 :: p.1, p.2)
    | s => some ([], s)
  let (exp, s) ← match s with
    | e :: s =>
      if e = 101 ∨ e = 69 then
        let (sg, s) : Bytes × Bytes := match s with
          | 43 :: s => ([43], s)
          | 45 :: s => ([45], s)
          | s => ([], s)
        (digits s).map fun p => (e :: sg ++ p.1, p.2)
      else some ([], e :: s)
    | [] => some ([], [])
  pure (sign ++ int ++ frac ++ exp, s)

/-- The float64 routines of strconv and encoding/json, kept as parameters. -/
structure FloatLib where
  /-- strconv.ParseFloat(s, bits), as the float64 bits of the result. -/
  parseFloat : Bytes → Nat → Except GoError Nat
  /-- The conversion `int64(v)`. -/
  toInt64 : Nat → Int
  /-- The conversion `float64(i)`. -/
  fromInt64 : Int → Nat
  /-- `==` on float64 values. -/
  eq : Nat → Nat → Bool
  /-- strconv.FormatFloat(v, 'f', -1, 64). -/
  formatFloat : Nat → Bytes
  /-- strconv.FormatInt(i, 10). -/
  formatInt : Int → Bytes
  /-- encoding/json's encoding of a float64. -/
  marshalFloat : Nat → Bytes

/-- What json.Unmarshal stores in an `any`: nil, bool, float64, string, []any, or a
map[string]any (its keys distinct). -/
inductive JsonValue where
  | null
  | bool (b : Bool)
  | number (bits : Nat)
  | string (s : Bytes)
  | array (xs : List JsonValue)
  | object (kvs : List (Bytes × JsonValue))

/-- `%T` of a decoded value. -/
def JsonValue.typeName : JsonValue → String
  | .null => "<nil>"
  | .bool _ => "bool"
  | .number _ => "float64"
  | .string _ => "string"
  | .array _ => "[]interface {}"
  | .object _ => "map[string]interface {}"

/-- `m[k] = v` on a decoded object: a later duplicate key replaces an earlier one. -/
def upsert (k : Bytes) (v : JsonValue) (kvs : List (Bytes × JsonValue)) :
    List (Bytes × JsonValue) :=
  kvs.filter (fun p => p.1 ≠ k) ++ [(k, v)]

section Decode
variable (fl : FloatLib)

mutual
/-- A value after optional whitespace; `fuel` bounds the nesting and the number of
elements, and twice the input's length is enough. -/
def parseValue : Nat → Bytes → Option (JsonValue × Bytes)
  | 0, _ => none
  | n + 1, s =>
    match skipWs s with
    | [] => none
    | b :: rest =>
      if b = 123 then
        match skipWs rest with
        | 125 :: rest' => some (.object [], rest')
        | s' => parseMembers n [] s'
      else if b = 91 then
        match skipWs rest with
        | 93 :: rest' => some (.array [], rest')
        | s' => parseElements n [] s'
      else if b = 34 then (parseString rest).map fun p => (.string p.1, p.2)
      else if ascii "true" <+: b :: rest then some (.bool true, rest.drop 3)
      else if ascii "false" <+: b :: rest then some (.bool false, rest.drop 4)
      else if ascii "null" <+: b :: rest then some (.null, rest.drop 3)
      else do
        let (lit, rest) ← scanNumber (b :: rest)
        let x ← (fl.parseFloat lit 64).toOption
        pure (.number x, rest)
/-- Object members after `{` or `,` and whitespace, accumulated in `acc`. -/
def parseMembers : Nat → List (Bytes × JsonValue) → Bytes → Option (JsonValue × Bytes)
  | 0, _, _ => none
  | n + 1, acc, s =>
    match s with
    | 34 :: rest => do
      let (key, rest) ← parseString rest
      match skipWs rest with
      | 58 :: rest => do
        let (v, rest) ← parseValue n rest
        match skipWs rest with
        | 44 :: rest => parseMembers n (upsert key v acc) (skipWs rest)
        | 125 :: rest => some (.object (upsert key v acc), rest)
        | _ => none
      | _ => none
    | _ => none
/-- Array elements after `[` or `,`, accumulated in `acc`. -/
def parseElements : Nat → List JsonValue → Bytes → Option (JsonValue × Bytes)
  | 0, _, _ => none
  | n + 1, acc, s => do
    let (v, rest) ← parseValue n s
    match skipWs rest with
    | 44 :: rest => parseElements n (acc ++ [v]) rest
    | 93 :: rest => some (.array (acc ++ [v]), rest)
    | _ => none
end

/-- json.Unmarshal into an `any`: one value and nothing but whitespace after it. -/
def unmarshal (data : Bytes) : Option JsonValue :=
  match parseValue fl (2 * data.length + 2) data with
  | some (v, rest) => if skipWs rest = [] then some v else none
  | none => none

end Decode

/-! ### json.Marshal of decoded values -/

/-- strings.Compare order: byte-wise, a proper prefix first. -/
def bytesLt : Bytes → Bytes → Bool
  | [], [] => false
  | [], _ :: _ => true
  | _ :: _, [] => false
  | a :: as, b :: bs => a < b || (a == b && bytesLt as bs)

/-- One insertion step of the sort of map keys. -/
def insertByKey {α : Type} (p : Bytes × α) : List (Bytes × α) → List (Bytes × α)
  | [] => [p]
  | q :: qs => if bytesLt p.1 q.1 then p :: q :: qs else q :: insertByKey p qs

/-- The members of a map in the order mapEncoder writes them: sorted by key. -/
def sortByKey {α : Type} (kvs : List (Bytes × α)) : List (Bytes × α) :=
  kvs.foldr insertByKey []

/-- mapEncoder: `{` then `"key":value` for each member, sorted by key, then `}`. The
values are given already encoded. -/
def encodeObject (kvs : List (Bytes × Bytes)) : Bytes :=
  [123] ++ [44].intercalate ((sortByKey kvs).map fun p => encodeString p.1 ++ [58] ++ p.2) ++ [125]

section Encode
variable (fl : FloatLib)

mutual
/-- json.Marshal of a decoded value. -/
def marshal : JsonValue → Bytes
  | .null => ascii "null"
  | .bool true => ascii "true"
  | .bool false => ascii "false"
  | .number x => fl.marshalFloat x
  | .string s => encodeString s
  | .array xs => [91] ++ [44].intercalate (marshalElements xs) ++ [93]
  | .object kvs => encodeObject (marshalMembers kvs)
def marshalElements : List JsonValue → List Bytes
  | [] => []
  | v :: vs => marshal v :: marshalElements vs
def marshalMembers : List (Bytes × JsonValue) → List (Bytes × Bytes)
  | [] => []
  | (k, v) :: kvs => (k, marshal v) :: marshalMembers kvs
end

end Encode

end GoSecrets.Json
