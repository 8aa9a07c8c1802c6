import GoSecrets.Basic

/-! The part of Go's type system the resolver's reflection sees (resolver.go): struct
fields with their `secret` tags, kinds, defined types (time.Duration, TextUnmarshaler
implementations, Versioned[T]), values as trees, and storage paths into a record. Types
are finite trees: a type reaching itself through a pointer is NOT expressible here. -/
namespace GoSecrets

/-- A struct field as `reflect.StructField` shows it; `tag` is `Tag.Lookup("secret")`. -/
structure FieldMeta where
  name : String
  exported : Bool
  anonymous : Bool
  tag : Option Bytes
deriving DecidableEq, Repr

/-- A defined type: its name, and whether `*T` implements encoding.TextUnmarshaler. -/
structure Named where
  name : String
  textUnmarshaler : Bool
deriving DecidableEq, Repr

/-- Go types. `bytes` is `[]byte`; `other` is any type of a kind the resolver does not
convert (map, chan, func, interface, array, a slice of non-bytes). -/
inductive GoType where
  | string
  | bool
  | int (bits : Nat)
  | uint (bits : Nat)
  | float (bits : Nat)
  | bytes
  | ptr (elem : GoType)
  | struct (fields : List (FieldMeta × GoType))
  | named (n : Named) (underlying : GoType)
  | other (name : String)
deriving Repr

mutual
/-- Type identity, `==` on `reflect.Type`. -/
def GoType.beq : GoType → GoType → Bool
  | .string, .string => true
  | .bool, .bool => true
  | .int a, .int b => a == b
  | .uint a, .uint b => a == b
  | .float a, .float b => a == b
  | .bytes, .bytes => true
  | .ptr a, .ptr b => a.beq b
  | .struct fs, .struct gs => GoType.beqFields fs gs
  | .named n u, .named n' u' => n == n' && u.beq u'
  | .other n, .other n' => n == n'
  | _, _ => false
def GoType.beqFields : List (FieldMeta × GoType) → List (FieldMeta × GoType) → Bool
  | [], [] => true
  | p :: fs, p' :: gs => p.1 == p'.1 && p.2.beq p'.2 && GoType.beqFields fs gs
  | _, _ => false
end

mutual
/-- `beq` decides identity: each case refutes a pair of distinct constructors or recurses. -/
theorem GoType.eq_of_beq : (a b : GoType) → a.beq b = true → a = b
  | .string, b, h | .bool, b, h | .bytes, b, h => by
    cases b <;> first | rfl | exact absurd h Bool.false_ne_true
  | .int _, b, h | .uint _, b, h | .float _, b, h | .other _, b, h => by
    cases b <;> first | exact absurd h Bool.false_ne_true | exact congrArg _ (beq_iff_eq.mp h)
  | .ptr _, b, h => by
    cases b <;> first
      | exact absurd h Bool.false_ne_true | exact congrArg _ (GoType.eq_of_beq _ _ h)
  | .struct _, b, h => by
    cases b <;> first
      | exact absurd h Bool.false_ne_true | exact congrArg _ (GoType.eq_of_beqFields _ _ h)
  | .named _ u, b, h => by
    cases b <;> first | exact absurd h Bool.false_ne_true | skip
    obtain ⟨h1, h2⟩ := Bool.and_eq_true_iff.mp h
    rw [beq_iff_eq.mp h1, GoType.eq_of_beq u _ h2]
theorem GoType.eq_of_beqFields : (fs gs : List (FieldMeta × GoType)) →
    GoType.beqFields fs gs = true → fs = gs
  | [], [], _ => rfl
  | [], _ :: _, h | _ :: _, [], h => by cases h
  | p :: fs, p' :: gs, h => by
    obtain ⟨⟨h1, h2⟩, h3⟩ := Bool.and_eq_true_iff.mp h |>.imp_left Bool.and_eq_true_iff.mp
    rw [Prod.ext (beq_iff_eq.mp h1) (GoType.eq_of_beq _ _ h2), GoType.eq_of_beqFields fs gs h3]
end

mutual
theorem GoType.beq_self : (a : GoType) → a.beq a = true
  | .string | .bool | .bytes => rfl
  | .int n | .uint n | .float n => beq_self_eq_true n
  | .other n => beq_self_eq_true n
  | .ptr e => GoType.beq_self e
  | .struct fs => GoType.beqFields_self fs
  | .named n u => Bool.and_eq_true_iff.mpr ⟨beq_self_eq_true n, GoType.beq_self u⟩
theorem GoType.beqFields_self : (fs : List (FieldMeta × GoType)) → GoType.beqFields fs fs = true
  | [] => rfl
  | p :: fs => Bool.and_eq_true_iff.mpr
      ⟨Bool.and_eq_true_iff.mpr ⟨beq_self_eq_true p.1, GoType.beq_self p.2⟩, GoType.beqFields_self fs⟩
end

instance : DecidableEq GoType := fun a b =>
  decidable_of_iff _ ⟨GoType.eq_of_beq a b, fun h => h ▸ GoType.beq_self a⟩

section Induction
variable {P : GoType → Prop} (hstruct : ∀ fs, (∀ p ∈ fs, P p.2) → P (.struct fs))
  (hptr : ∀ e, P e → P (.ptr e)) (hnamed : ∀ n u, P u → P (.named n u))
  (hleaf : ∀ t, (∀ e, t ≠ .ptr e) → (∀ fs, t ≠ .struct fs) → (∀ n u, t ≠ .named n u) → P t)
include hstruct hptr hnamed hleaf

/-- Induction on types with the hypothesis for every field type of a struct. -/
theorem GoType.fieldInduction (t : GoType) : P t :=
  match t with
  | .struct fs => hstruct fs fun p _ => GoType.fieldInduction p.2
  | .ptr e => hptr e (GoType.fieldInduction e)
  | .named n u => hnamed n u (GoType.fieldInduction u)
  | .string | .bool | .int _ | .uint _ | .float _ | .bytes | .other _ => hleaf _ nofun nofun nofun
termination_by t
decreasing_by
  all_goals simp_wf
  all_goals first
    | omega
    | rename_i h
      have := List.sizeOf_lt_of_mem h
      cases p
      simp only [Prod.mk.sizeOf_spec] at this ⊢
      omega

end Induction

/-- `reflect.Kind`, as far as the resolver switches on it. -/
inductive Kind where
  | string | bool | int | uint | float | slice | ptr | struct | other
deriving DecidableEq, Repr

def GoType.kind : GoType → Kind
  | .string => .string
  | .bool => .bool
  | .int _ => .int
  | .uint _ => .uint
  | .float _ => .float
  | .bytes => .slice
  | .ptr _ => .ptr
  | .struct _ => .struct
  | .named _ u => u.kind
  | .other _ => .other

/-- `t.Elem()` of a pointer type. -/
def GoType.elem? : GoType → Option GoType
  | .ptr e => some e
  | .named _ u => u.elem?
  | _ => none

/-- `t.Field(i)` for all `i < t.NumField()`. -/
def GoType.fields : GoType → List (FieldMeta × GoType)
  | .struct fs => fs
  | .named _ u => u.fields
  | _ => []

/-- `t.Bits()`; plain `int` and `uint` are the 64-bit ones. -/
def GoType.bits : GoType → Nat
  | .int b | .uint b | .float b => b
  | .named _ u => u.bits
  | _ => 0

/-- Whether `reflect.PointerTo(t)` implements encoding.TextUnmarshaler. -/
def GoType.textUnmarshaler : GoType → Bool
  | .named n _ => n.textUnmarshaler
  | _ => false

/-- `t.String()`, the type name the errors report. -/
def GoType.name : GoType → String
  | .string => "string"
  | .bool => "bool"
  | .int b => "int" ++ toString b
  | .uint b => "uint" ++ toString b
  | .float b => "float" ++ toString b
  | .bytes => "[]uint8"
  | .ptr e => "*" ++ e.name
  | .struct _ => "struct"
  | .named n _ => n.name
  | .other n => n

/-- `time.Duration`, which setField and valueToBytes single out among the int64 types. -/
def durationType : GoType := .named ⟨"time.Duration", false⟩ (.int 64)

/-- isVersionedType: a struct of exactly two fields `Current` and `Previous` of one type. -/
def isVersionedType (t : GoType) : Bool :=
  t.kind == .struct &&
    match t.fields with
    | [(f0, t0), (f1, t1)] => f0.name == "Current" && f1.name == "Previous" && t0 == t1
    | _ => false

/-- The type `Versioned[T]` of package secrets. -/
def versionedType (t : GoType) : GoType :=
  .named ⟨"secrets.Versioned[" ++ t.name ++ "]", false⟩
    (.struct [(⟨"Current", true, false, none⟩, t), (⟨"Previous", true, false, none⟩, t)])

mutual
/-- hasSecretTags: some field of the struct, or of a struct reached through struct or
pointer-to-struct fields, has a `secret` tag. Exported or not, embedded or not. -/
def hasSecretTags : GoType → Bool
  | .struct fs => hasSecretTagsFields fs
  | .named _ u => hasSecretTags u
  | _ => false
def hasSecretTagsFields : List (FieldMeta × GoType) → Bool
  | [] => false
  | (f, ft) :: fs => f.tag.isSome || hasSecretTagsBelow ft || hasSecretTagsFields fs
/-- The field-type test of hasSecretTags: dereference a pointer once, then a struct with tags. -/
def hasSecretTagsBelow : GoType → Bool
  | .ptr e => e.kind == .struct && hasSecretTags e
  | .named _ u => hasSecretTagsBelow u
  | .struct fs => hasSecretTagsFields fs
  | _ => false
end

/-- isSupportedType: after one pointer dereference, a TextUnmarshaler or a string, bool,
integer, float or `[]byte` kind. -/
def isSupportedType (t : GoType) : Bool :=
  let t := (t.elem?).getD t
  t.textUnmarshaler ||
    match t.kind with
    | .string | .bool | .int | .uint | .float | .slice => true
    | _ => false

/-- Go values. A value of a defined type is a value of its underlying type; `bytes`
holds a `[]byte` (nil and empty alike), `float` the IEEE bits of a float, `other` a value
of a kind the resolver does not convert. -/
inductive Value where
  | str (s : Bytes)
  | bool (b : Bool)
  | int (n : Int)
  | uint (n : Nat)
  | float (bits : Nat)
  | bytes (b : Bytes)
  | ptr (target : Option Value)
  | struct (fields : List Value)
  | other (id : Nat)
deriving Repr

mutual
def Value.beq : Value → Value → Bool
  | .str a, .str b => a == b
  | .bool a, .bool b => a == b
  | .int a, .int b => a == b
  | .uint a, .uint b => a == b
  | .float a, .float b => a == b
  | .bytes a, .bytes b => a == b
  | .ptr none, .ptr none => true
  | .ptr (some a), .ptr (some b) => a.beq b
  | .struct as, .struct bs => Value.beqList as bs
  | .other a, .other b => a == b
  | _, _ => false
def Value.beqList : List Value → List Value → Bool
  | [], [] => true
  | a :: as, b :: bs => a.beq b && Value.beqList as bs
  | _, _ => false
end

mutual
theorem Value.eq_of_beq : (a b : Value) → a.beq b = true → a = b
  | .str _, b, h | .bool _, b, h | .int _, b, h | .uint _, b, h | .float _, b, h | .bytes _, b, h
  | .other _, b, h => by
    cases b <;> first | exact absurd h Bool.false_ne_true | exact congrArg _ (beq_iff_eq.mp h)
  | .ptr none, b, h => by
    rcases b with _ | _ | _ | _ | _ | _ | (_ | _) | _ | _ <;>
      first | rfl | exact absurd h Bool.false_ne_true
  | .ptr (some _), b, h => by
    rcases b with _ | _ | _ | _ | _ | _ | (_ | _) | _ | _ <;> first
      | exact absurd h Bool.false_ne_true
      | exact congrArg (Value.ptr ∘ some) (Value.eq_of_beq _ _ h)
  | .struct _, b, h => by
    cases b <;> first
      | exact absurd h Bool.false_ne_true | exact congrArg _ (Value.eq_of_beqList _ _ h)
theorem Value.eq_of_beqList : (as bs : List Value) → Value.beqList as bs = true → as = bs
  | [], [], _ => rfl
  | [], _ :: _, h | _ :: _, [], h => by cases h
  | a :: as, b :: bs, h => by
    obtain ⟨h1, h2⟩ := Bool.and_eq_true_iff.mp h
    rw [Value.eq_of_beq a b h1, Value.eq_of_beqList as bs h2]
end

mutual
theorem Value.beq_self : (a : Value) → a.beq a = true
  | .ptr none => rfl
  | .ptr (some v) => Value.beq_self v
  | .struct vs => Value.beqList_self vs
  | .str s | .bytes s => beq_self_eq_true s
  | .bool b => beq_self_eq_true b
  | .int n => beq_self_eq_true n
  | .uint n | .float n | .other n => beq_self_eq_true n
theorem Value.beqList_self : (vs : List Value) → Value.beqList vs vs = true
  | [] => rfl
  | v :: vs => Bool.and_eq_true_iff.mpr ⟨Value.beq_self v, Value.beqList_self vs⟩
end

instance : DecidableEq Value := fun a b =>
  decidable_of_iff _ ⟨Value.eq_of_beq a b, fun h => h ▸ Value.beq_self a⟩

mutual
/-- The zero value of a type, what `reflect.New(t).Elem()` holds. -/
def GoType.zero : GoType → Value
  | .string => .str []
  | .bool => .bool false
  | .int _ => .int 0
  | .uint _ => .uint 0
  | .float _ => .float 0
  | .bytes => .bytes []
  | .ptr _ => .ptr none
  | .struct fs => .struct (GoType.zeroFields fs)
  | .named _ u => u.zero
  | .other _ => .other 0
def GoType.zeroFields : List (FieldMeta × GoType) → List Value
  | [] => []
  | (_, t) :: fs => t.zero :: GoType.zeroFields fs
end

/-- The fields of a struct value; a value of another shape has none. -/
def Value.fieldsOf : Value → List Value
  | .struct vs => vs
  | _ => []

/-- One step of a storage path: a struct field by index, or the pointee of a pointer. -/
inductive Step where
  | field (i : Nat)
  | elem
deriving DecidableEq, Repr

/-- Where a `reflect.Value` obtained by `Field(i)` and `Elem()` calls lives in a record. -/
abbrev Path := List Step

/-- The value stored at a path, if the path exists. -/
def Value.get : Value → Path → Option Value
  | v, [] => some v
  | .struct vs, .field i :: p => (vs.get? i).bind fun w => w.get p
  | .ptr (some w), .elem :: p => w.get p
  | _, _ => none

/-- `Set` through a path: replace the value stored there; no change if it does not exist. -/
def Value.set : Value → Path → Value → Value
  | _, [], x => x
  | .struct vs, .field i :: p, x => .struct (vs.modify (fun w => w.set p x) i)
  | .ptr (some w), .elem :: p, x => .ptr (some (w.set p x))
  | v, _, _ => v

/-- Two paths that name places that do not overlap: neither is a prefix of the other. -/
def Path.Disjoint (p q : Path) : Prop := ¬ p <+: q ∧ ¬ q <+: p

theorem Path.disjoint_cons_cons {s s' : Step} {p q : Path} :
    Path.Disjoint (s :: p) (s' :: q) ↔ s ≠ s' ∨ Path.Disjoint p q := by
  by_cases h : s = s'
  · subst h; simp [Path.Disjoint, List.cons_prefix_cons]
  · simp [Path.Disjoint, List.cons_prefix_cons, h, Ne.symm h]

theorem Path.Disjoint.symm {p q : Path} (h : Path.Disjoint p q) : Path.Disjoint q p := ⟨h.2, h.1⟩

/-- What a path through a record can go through: a field of a struct, or a pointee. -/
theorem Value.get_cons_eq_some {v : Value} {s : Step} {p : Path} {y : Value} :
    v.get (s :: p) = some y ↔
      (∃ vs i w, s = .field i ∧ v = .struct vs ∧ vs[i]? = some w ∧ w.get p = some y) ∨
        ∃ w, s = .elem ∧ v = .ptr (some w) ∧ w.get p = some y := by
  cases s <;> rcases v with _ | _ | _ | _ | _ | _ | (_ | w) | vs | _ <;>
    simp [Value.get, Option.bind_eq_some]

@[simp] theorem Value.get_nil (v : Value) : v.get [] = some v := by simp [Value.get]

@[simp] theorem Value.set_nil (v x : Value) : v.set [] x = x := by simp [Value.set]

theorem Value.get_set_self (x : Value) :
    ∀ (p : Path) (v : Value), (v.get p).isSome → (v.set p x).get p = some x
  | [], _, _ => by simp
  | s :: p, v, h => by
    obtain ⟨y, hy⟩ := Option.isSome_iff_exists.mp h
    rcases Value.get_cons_eq_some.mp hy with ⟨vs, i, w, rfl, rfl, hw, hp⟩ | ⟨w, rfl, rfl, hp⟩
    · simp [Value.get, Value.set, List.getElem?_modify, hw, Value.get_set_self x p w (by simp [hp])]
    · exact Value.get_set_self x p w (by simp [hp])

theorem Value.get_set_disjoint (x : Value) :
    ∀ (p q : Path) (v : Value), Path.Disjoint p q → (v.set p x).get q = v.get q
  | [], _, _, h => absurd (List.nil_prefix ..) h.1
  | _ :: _, [], _, h => absurd (List.nil_prefix ..) h.2
  | s :: p, s' :: q, v, h => by
    by_cases hs : s = s'
    · subst hs
      have ih := fun w => Value.get_set_disjoint x p q w
        ((Path.disjoint_cons_cons.mp h).resolve_left (not_not.mpr rfl))
      cases s <;> rcases v with _ | _ | _ | _ | _ | _ | (_ | w) | vs | _ <;>
        simp [Value.get, Value.set, List.getElem?_modify, Option.bind_map, Function.comp_def, ih]
    · cases s <;> cases s' <;> rcases v with _ | _ | _ | _ | _ | _ | (_ | w) | vs | _ <;>
        simp_all [Value.get, Value.set, List.getElem?_modify]

@[simp] theorem Value.get_struct_cons (Y : List Value) (k : Nat) (p : Path) :
    (Value.struct Y).get (.field k :: p) = Y[k]?.bind (·.get p) := by
  simp [Value.get]

@[simp] theorem Value.get_ptr_cons (y : Value) (p : Path) :
    (Value.ptr (some y)).get (.elem :: p) = y.get p := by
  simp [Value.get]

@[simp] theorem Value.set_struct_cons (Y : List Value) (k : Nat) (p : Path) (x : Value) :
    (Value.struct Y).set (.field k :: p) x = .struct (Y.modify (·.set p x) k) := by
  simp [Value.set]

@[simp] theorem Value.set_ptr_cons (y : Value) (p : Path) (x : Value) :
    (Value.ptr (some y)).set (.elem :: p) x = .ptr (some (y.set p x)) := by
  simp [Value.set]

/-! ### Paths below a path -/

/-- A place below a path is disjoint from whatever the path is disjoint from. -/
theorem Path.Disjoint.append_left {p q : Path} (h : Path.Disjoint p q) (u : Path) :
    Path.Disjoint (p ++ u) q :=
  ⟨fun hpq => h.1 ((List.prefix_append p u).trans hpq),
    fun hqp => (List.prefix_or_prefix_of_prefix hqp (List.prefix_append p u)).elim h.2 h.1⟩

/-- Reading below a path reads the value stored at the path. -/
theorem Value.get_append : ∀ (v : Value) (p q : Path), v.get (p ++ q) = (v.get p).bind (·.get q)
  | _, [], _ => by simp
  | v, s :: p, q => by
    have ih := fun w => Value.get_append w p q
    cases s <;> rcases v with _ | _ | _ | _ | _ | _ | (_ | w) | vs | _ <;>
      simp [Value.get, Option.bind_assoc, ih]

theorem modify_congr_at {α : Type} {f g : α → α} {l : List α} {i : Nat} {a : α}
    (h : l[i]? = some a) (hfg : f a = g a) : l.modify f i = l.modify g i := by
  refine List.ext_getElem? fun j => ?_
  simp only [List.getElem?_modify]
  by_cases hij : i = j
  · subst hij; simp [h, hfg]
  · simp [hij]

/-- Setting below a path whose value is `w` sets the path to `w` updated below. -/
theorem Value.set_append (x : Value) : ∀ (v : Value) (p q : Path) {w : Value}, v.get p = some w →
    v.set (p ++ q) x = v.set p (w.set q x)
  | _, [], _, _, h => by simp only [Value.get_nil, Option.some.injEq] at h; simp [h]
  | v, s :: p, q, w, h => by
    rcases Value.get_cons_eq_some.mp h with ⟨vs, i, w', rfl, rfl, hw, hp⟩ | ⟨w', rfl, rfl, hp⟩
    · simp only [List.cons_append, Value.set_struct_cons]
      exact congrArg Value.struct (modify_congr_at hw (Value.set_append x w' p q hp))
    · simp [Value.set_append x w' p q hp]

/-- Setting a path to the value already there changes nothing. -/
theorem Value.set_get_self : ∀ {v : Value} {p : Path} {w : Value}, v.get p = some w → v.set p w = v
  | _, [], _, h => by simp only [Value.get_nil, Option.some.injEq] at h; simp [h]
  | v, s :: p, w, h => by
    rcases Value.get_cons_eq_some.mp h with ⟨vs, i, w', rfl, rfl, hw, hp⟩ | ⟨w', rfl, rfl, hp⟩
    · rw [Value.set_struct_cons,
        modify_congr_at (f := (·.set p w)) (g := id) hw (Value.set_get_self hp), List.modify_id]
    · simp [Value.set_get_self hp]

/-- A second set at the same path overrides the first. -/
theorem Value.set_set_self (x y : Value) : ∀ (v : Value) (p : Path), (v.set p x).set p y = v.set p y
  | _, [] => by simp
  | v, s :: p => by
    have ih := fun w => Value.set_set_self x y w p
    cases s <;> rcases v with _ | _ | _ | _ | _ | _ | (_ | w) | vs | _ <;>
      simp [Value.set, List.modify_modify_eq, Function.comp_def, ih]

/-- Setting a path that does not exist changes nothing. -/
theorem Value.set_of_get_eq_none (x : Value) : ∀ {v : Value} {p : Path}, v.get p = none → v.set p x = v
  | _, [], h => by simp at h
  | v, .field i :: p, h => by
    rcases v with _ | _ | _ | _ | _ | _ | (_ | w) | vs | _ <;> try rfl
    rw [Value.get_struct_cons] at h
    rw [Value.set_struct_cons]
    refine congrArg Value.struct (List.ext_getElem? fun j => ?_)
    rw [List.getElem?_modify]
    by_cases hij : i = j
    · subst hij
      cases hw : vs[i]? with
      | none => simp
      | some w =>
        rw [hw, Option.some_bind] at h
        simpa using Value.set_of_get_eq_none x h
    · simp [hij]
  | v, .elem :: p, h => by
    rcases v with _ | _ | _ | _ | _ | _ | (_ | w) | vs | _ <;> try rfl
    rw [Value.set_ptr_cons, Value.set_of_get_eq_none x (by simpa using h)]

end GoSecrets
