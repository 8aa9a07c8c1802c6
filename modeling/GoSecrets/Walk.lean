import GoSecrets.Tag
import GoSecrets.Types

/-! The resolver's configuration and its two walks over a record (resolver.go):
collectFields, which Resolve, takeSnapshot and poll run on values, and validateStruct,
which Validate runs on the type alone. Both are modelled as the code is written, two
loops per struct; what each walk finds and what it allocates is proved here. -/
namespace GoSecrets

/-- resolverConfig: the default provider, the providers by scheme, the parallelism. -/
structure ResolverConfig where
  defaultProvider : Option Provider
  providers : Bytes → Option Provider
  parallelism : Nat

/-- An Option of NewResolver. -/
abbrev ResolverOption := ResolverConfig → ResolverConfig

def withDefault (p : Provider) : ResolverOption := fun c => { c with defaultProvider := some p }

def withProvider (scheme : Bytes) (p : Provider) : ResolverOption :=
  fun c => { c with providers := Function.update c.providers scheme (some p) }

def withParallelism (n : Int) : ResolverOption :=
  fun c => { c with parallelism := if n < 1 then 1 else n.toNat }

/-- NewResolver: the options in order; parallelism 0 becomes 10. -/
def newResolver (opts : List ResolverOption) : ResolverConfig :=
  let c := opts.foldl (fun c o => o c) ⟨none, fun _ => none, 0⟩
  if c.parallelism = 0 then { c with parallelism := 10 } else c

/-- fieldInfo: a tagged field to resolve; `path` is where `fieldValue` lives. -/
structure FieldInfo where
  fieldName : String
  path : Path
  type : GoType
  tag : ParsedTag
  provider : Provider
  providerName : Bytes
  isVersioned : Bool

/-- What a walk reports, in order: the fields to resolve and the configuration errors. -/
structure Found where
  fields : List FieldInfo := []
  errs : List GoError := []

instance : Append Found := ⟨fun a b => ⟨a.fields ++ b.fields, a.errs ++ b.errs⟩⟩

/-- The same findings one step further down: their paths start with `s`. -/
def Found.under (s : Step) (f : Found) : Found :=
  { f with fields := f.fields.map fun fi => { fi with path := s :: fi.path } }

@[simp] theorem Found.fields_append (a b : Found) : (a ++ b).fields = a.fields ++ b.fields := rfl
@[simp] theorem Found.errs_append (a b : Found) : (a ++ b).errs = a.errs ++ b.errs := rfl
@[simp] theorem Found.fields_under (s : Step) (f : Found) :
    (f.under s).fields = f.fields.map fun fi => { fi with path := s :: fi.path } := rfl
@[simp] theorem Found.errs_under (s : Step) (f : Found) : (f.under s).errs = f.errs := rfl
@[simp] theorem Found.fields_empty : ({} : Found).fields = [] := rfl
@[simp] theorem Found.errs_empty : ({} : Found).errs = [] := rfl

section Walk
variable (cfg : ResolverConfig)

/-- The provider of a parsed tag and its name: the scheme's, or the default one. -/
def providerFor (name : String) (tag : ParsedTag) : Except GoError (Provider × Bytes) :=
  if tag.scheme ≠ [] then
    match cfg.providers tag.scheme with
    | some p => .ok (p, tag.scheme)
    | none => .error (.unknownProvider name tag.scheme tag.uri)
  else
    match cfg.defaultProvider with
    | some p => .ok (p, ascii "default")
    | none => .error (.noDefaultProvider name tag.key)

/-- The first loop's work on an exported field with a `secret` tag. -/
def taggedField (f : FieldMeta) (ft : GoType) (raw : Bytes) : Found :=
  match parseTag raw with
  | .error e => ⟨[], [.field f.name e]⟩
  | .ok tag =>
    match providerFor cfg f.name tag with
    | .error e => ⟨[], [e]⟩
    | .ok (p, pname) =>
      if isVersionedType ft ∧ p.getVersion.isNone then
        ⟨[], [.versioningNotSupported f.name pname]⟩
      else ⟨[⟨f.name, [], ft, tag, p, pname, isVersionedType ft⟩], []⟩

/-- The findings of the fields from index `j` on, each under its own `Field(j)`, in
field order. -/
def numbered : Nat → List Found → Found
  | _, [] => {}
  | j, r :: rs => r.under (.field j) ++ numbered (j + 1) rs

/-- The first loop on a field that is not an embedded struct: an exported field with a
`secret` tag is collected, any other skipped. -/
def tagFound (f : FieldMeta) (ft : GoType) : Found :=
  match f.exported, f.tag with
  | true, some raw => taggedField cfg f ft raw
  | _, _ => {}

mutual
/-- collectFields(sv): the two loops over the fields of struct `sv`. Returns `sv` after
the allocations of the second loop, and what was found, with paths relative to `sv`. -/
def collectFields : GoType → Value → Value × Found
  | .struct fs, v =>
    let r1 := firstPass fs v.fieldsOf
    let r2 := secondPass fs (r1.map Prod.fst)
    (.struct (r2.map Prod.fst), numbered 0 (r1.map Prod.snd) ++ numbered 0 (r2.map Prod.snd))
  | .named _ u, v => collectFields u v
  | _, v => (v, {})
/-- The first loop, field by field: embedded structs are walked, tagged exported fields
collected. -/
def firstPass : List (FieldMeta × GoType) → List Value → List (Value × Found)
  | [], _ => []
  | (f, ft) :: fs, vs =>
    (if f.anonymous ∧ ft.kind = .struct then collectFields ft (vs.headD ft.zero)
     else (vs.headD ft.zero, tagFound cfg f ft)) :: firstPass fs vs.tail
/-- The second loop, field by field: exported fields that are neither embedded nor
tagged. -/
def secondPass : List (FieldMeta × GoType) → List Value → List (Value × Found)
  | [], _ => []
  | (f, ft) :: fs, vs =>
    (if f.anonymous ∨ f.exported = false ∨ f.tag.isSome then (vs.headD ft.zero, {})
     else nestedField ft (vs.headD ft.zero)) :: secondPass fs vs.tail
/-- The second loop's work on one field: a nil pointer to a struct is set to a new zero
struct, and then a struct with secret tags is walked. -/
def nestedField : GoType → Value → Value × Found
  | .ptr e, v =>
    if e.kind = .struct then
      let x := match v with
        | .ptr (some x) => x
        | _ => e.zero
      if hasSecretTags e then
        let r := collectFields e x
        (.ptr (some r.1), r.2.under .elem)
      else (.ptr (some x), {})
    else (v, {})
  | .named _ u, v => nestedField u v
  | .struct fs, v =>
    if hasSecretTagsFields fs then
      let r1 := firstPass fs v.fieldsOf
      let r2 := secondPass fs (r1.map Prod.fst)
      (.struct (r2.map Prod.fst), numbered 0 (r1.map Prod.snd) ++ numbered 0 (r2.map Prod.snd))
    else (v, {})
  | _, v => (v, {})
end

/-! ### The walk, field by field -/

/-- The first loop's work on one field. -/
def firstField (f : FieldMeta) (ft : GoType) (v : Value) : Value × Found :=
  if f.anonymous ∧ ft.kind = .struct then collectFields cfg ft v else (v, tagFound cfg f ft)

/-- The second loop's work on one field. -/
def secondField (f : FieldMeta) (ft : GoType) (v : Value) : Value × Found :=
  if f.anonymous ∨ f.exported = false ∨ f.tag.isSome then (v, {}) else nestedField cfg ft v

/-- What both loops leave in one field. -/
def fieldWalk (f : FieldMeta) (ft : GoType) (v : Value) : Value :=
  (secondField cfg f ft (firstField cfg f ft v).1).1

/-- The shape of both loops: `g` on each field and its value, a missing value read as
the zero of the field's type. -/
def zipFields {α : Type} (g : FieldMeta → GoType → Value → α) :
    List (FieldMeta × GoType) → List Value → List α
  | [], _ => []
  | (f, ft) :: fs, vs => g f ft (vs.headD ft.zero) :: zipFields g fs vs.tail

section ZipFields
variable {α β : Type} {g g' : FieldMeta → GoType → Value → α}

theorem zipFields_map (h : α → β) :
    ∀ fs vs, (zipFields g fs vs).map h = zipFields (fun f ft v => h (g f ft v)) fs vs
  | [], _ => rfl
  | _ :: fs, _ => congrArg _ (zipFields_map h fs _)

theorem zipFields_zipFields (k : FieldMeta → GoType → Value → Value) :
    ∀ fs vs, zipFields g fs (zipFields k fs vs) = zipFields (fun f ft v => g f ft (k f ft v)) fs vs
  | [], _ => rfl
  | _ :: fs, _ => congrArg _ (zipFields_zipFields k fs _)

theorem zipFields_congr :
    ∀ {fs}, (∀ p ∈ fs, ∀ v, g p.1 p.2 v = g' p.1 p.2 v) → ∀ vs, zipFields g fs vs = zipFields g' fs vs
  | [], _, _ => rfl
  | _ :: _, h, _ => by
    simp only [zipFields, h _ (.head _)]
    exact congrArg _ (zipFields_congr (fun p hp => h p (.tail _ hp)) _)

theorem zipFields_indep :
    ∀ {fs}, (∀ p ∈ fs, ∀ v w, g p.1 p.2 v = g p.1 p.2 w) → ∀ vs ws, zipFields g fs vs = zipFields g fs ws
  | [], _, _, _ => rfl
  | (f, ft) :: _, h, vs, ws => by
    rw [zipFields, zipFields, h (f, ft) (.head _) (vs.headD ft.zero) (ws.headD ft.zero)]
    exact congrArg _ (zipFields_indep (fun p hp => h p (.tail _ hp)) _ _)

@[simp] theorem length_zipFields : ∀ fs vs, (zipFields g fs vs).length = fs.length
  | [], _ => rfl
  | _ :: fs, _ => congrArg (· + 1) (length_zipFields fs _)

end ZipFields

theorem firstPass_eq : ∀ fs vs, firstPass cfg fs vs = zipFields (firstField cfg) fs vs
  | [], _ => rfl
  | _ :: fs, _ => congrArg _ (firstPass_eq fs _)

theorem secondPass_eq : ∀ fs vs, secondPass cfg fs vs = zipFields (secondField cfg) fs vs
  | [], _ => rfl
  | _ :: fs, _ => congrArg _ (secondPass_eq fs _)

/-- collectFields on a struct: each field walked by both loops, the first loop's findings
before the second's. -/
theorem collectFields_struct (fs : List (FieldMeta × GoType)) (v : Value) :
    collectFields cfg (.struct fs) v =
      (.struct (zipFields (fieldWalk cfg) fs v.fieldsOf),
        numbered 0 (zipFields (fun f ft v => (firstField cfg f ft v).2) fs v.fieldsOf) ++
        numbered 0 (zipFields (fun f ft v => (secondField cfg f ft (firstField cfg f ft v).1).2)
          fs v.fieldsOf)) := by
  simp only [collectFields, firstPass_eq, secondPass_eq, zipFields_map, zipFields_zipFields]
  rfl

theorem nestedField_struct (fs : List (FieldMeta × GoType)) (v : Value) :
    nestedField cfg (.struct fs) v =
      if hasSecretTagsFields fs then collectFields cfg (.struct fs) v else (v, {}) := rfl

theorem nestedField_ptr (e : GoType) (v : Value) :
    nestedField cfg (.ptr e) v =
      if e.kind = .struct then
        let x := match v with
          | .ptr (some x) => x
          | _ => e.zero
        if hasSecretTags e then ((Value.ptr (some (collectFields cfg e x).1)), (collectFields cfg e x).2.under .elem)
        else (.ptr (some x), {})
      else (v, {}) := rfl

theorem collectFields_leaf {t : GoType} (h1 : ∀ fs, t ≠ .struct fs) (h2 : ∀ n u, t ≠ .named n u)
    (v : Value) : collectFields cfg t v = (v, {}) := by
  cases t <;> first | rfl | simp_all

theorem nestedField_leaf {t : GoType} (h0 : ∀ e, t ≠ .ptr e) (h1 : ∀ fs, t ≠ .struct fs)
    (h2 : ∀ n u, t ≠ .named n u) (v : Value) : nestedField cfg t v = (v, {}) := by
  cases t <;> first | rfl | simp_all

/-- What collectFields finds does not depend on the values in the record: only the type
and the configuration decide the fields, their paths, tags and providers, and the errors. -/
theorem collectFields_found_eq (t : GoType) :
    (∀ v w, (collectFields cfg t v).2 = (collectFields cfg t w).2) ∧
      ∀ v w, (nestedField cfg t v).2 = (nestedField cfg t w).2 := by
  induction t using GoType.fieldInduction with
  | hstruct fs ih =>
    have h : ∀ v w, (collectFields cfg (.struct fs) v).2 = (collectFields cfg (.struct fs) w).2 := by
      intro v w
      simp only [collectFields_struct]
      congr 2 <;> apply zipFields_indep <;> intro p hp v w
      · unfold firstField; split
        · exact (ih p hp).1 v w
        · rfl
      · unfold firstField secondField; split <;> split <;> first | rfl | exact (ih p hp).2 _ _
    refine ⟨h, fun v w => ?_⟩
    simp only [nestedField_struct]; split
    · exact h v w
    · rfl
  | hptr e ih =>
    refine ⟨fun _ _ => rfl, fun v w => ?_⟩
    simp only [nestedField_ptr]; split
    · split
      · exact congrArg (Found.under .elem) (ih.1 _ _)
      · rfl
    · rfl
  | hnamed n u ih => exact ih
  | hleaf t h0 h1 h2 =>
    exact ⟨fun v w => by simp only [collectFields_leaf cfg h1 h2],
      fun v w => by simp only [nestedField_leaf cfg h0 h1 h2]⟩

/-- A record the walk has visited: walking it again allocates nothing. -/
def Walked (t : GoType) (v : Value) : Prop := (collectFields cfg t v).1 = v

/-- collectFields allocates nothing in a record that it has already walked. -/
theorem collectFields_idem (t : GoType) :
    (∀ v, Walked cfg t (collectFields cfg t v).1) ∧
      ∀ v, (nestedField cfg t (nestedField cfg t v).1).1 = (nestedField cfg t v).1 := by
  induction t using GoType.fieldInduction with
  | hstruct fs ih =>
    have h : ∀ v, Walked cfg (.struct fs) (collectFields cfg (.struct fs) v).1 := by
      intro v
      simp only [Walked, collectFields_struct, Value.fieldsOf, zipFields_zipFields]
      congr 1
      refine zipFields_congr (fun p hp v => ?_) _
      unfold fieldWalk firstField secondField
      by_cases ha : p.1.anonymous ∧ p.2.kind = .struct
      · simp only [ha, if_true, true_or]
        exact (ih p hp).1 v
      · simp only [ha, if_false]
        split
        · simp only [*, if_true]
        · simp only [*, if_false]
    refine ⟨h, fun v => ?_⟩
    simp only [nestedField_struct]; split
    · exact h v
    · rfl
  | hptr e ih =>
    refine ⟨fun _ => rfl, fun v => ?_⟩
    simp only [nestedField_ptr]; split
    · split
      · simp only [*, if_true]; exact congrArg (Value.ptr ∘ some) (ih.1 _)
      · simp only [*, if_true, if_false]
    · simp only [*, if_false]
  | hnamed n u ih => exact ih
  | hleaf t h0 h1 h2 =>
    exact ⟨fun v => by simp only [Walked, collectFields_leaf cfg h1 h2],
      fun v => by simp only [nestedField_leaf cfg h0 h1 h2]⟩

/-! ### Where the collected fields are -/

theorem mem_numbered {fi : FieldInfo} : ∀ {j : Nat} {rs : List Found},
    fi ∈ (numbered j rs).fields ↔
      ∃ (k : Nat) (r : Found) (fi' : FieldInfo), rs[k]? = some r ∧ fi' ∈ r.fields ∧
        fi = { fi' with path := .field (j + k) :: fi'.path }
  | _, [] => by simp [numbered]
  | j, r :: rs => by
    simp only [numbered, Found.fields_append, Found.fields_under, List.mem_append, List.mem_map,
      mem_numbered]
    constructor
    · rintro (⟨fi', h, rfl⟩ | ⟨k, r', fi', hk, h, rfl⟩)
      · exact ⟨0, r, fi', by simp, h, rfl⟩
      · exact ⟨k + 1, r', fi', by simpa using hk, h, by simp only [Nat.add_assoc, Nat.add_comm 1 k]⟩
    · rintro ⟨_ | k, r', fi', hk, h, rfl⟩
      · simp only [List.getElem?_cons_zero, Option.some.injEq] at hk
        exact .inl ⟨fi', hk ▸ h, rfl⟩
      · exact .inr ⟨k, r', fi', by simpa using hk, h, by simp only [Nat.add_assoc, Nat.add_comm 1 k]⟩

theorem zipFields_getElem? {α : Type} (g : FieldMeta → GoType → Value → α) :
    ∀ (fs : List (FieldMeta × GoType)) (vs : List Value) (k : Nat),
      (zipFields g fs vs)[k]? = fs[k]?.map fun p => g p.1 p.2 ((vs.drop k).headD p.2.zero)
  | [], _, _ => rfl
  | (_, _) :: _, _, 0 => by simp [zipFields]
  | (_, _) :: fs, vs, k + 1 => by
    simp only [zipFields, List.getElem?_cons_succ, zipFields_getElem? g fs vs.tail k, List.drop_tail]

theorem headD_drop {vs : List Value} {k : Nat} {y d : Value} (h : vs[k]? = some y) :
    (vs.drop k).headD d = y := by
  simp [h]

theorem zipFields_fixed {g : FieldMeta → GoType → Value → Value} {fs Y} (h : zipFields g fs Y = Y)
    {k : Nat} {p : FieldMeta × GoType} {y : Value} (hp : fs[k]? = some p) (hy : Y[k]? = some y) : g p.1 p.2 y = y := by
  have := zipFields_getElem? g fs Y k
  rw [h, hp, hy, Option.map_some', headD_drop hy] at this
  exact (Option.some.inj this).symm

theorem zipFields_eq_self {g : FieldMeta → GoType → Value → Value} {fs Y}
    (hl : Y.length = fs.length)
    (h : ∀ (k : Nat) (p : FieldMeta × GoType) (y : Value), fs[k]? = some p → Y[k]? = some y →
      g p.1 p.2 y = y) :
    zipFields g fs Y = Y := by
  refine List.ext_getElem? fun k => ?_
  rw [zipFields_getElem?]
  cases hp : fs[k]? with
  | none =>
    have := List.getElem?_eq_none_iff.mp hp
    rw [List.getElem?_eq_none_iff.mpr (by omega)]; rfl
  | some p =>
    obtain ⟨hk, -⟩ := List.getElem?_eq_some_iff.mp hp
    have hy := List.getElem?_eq_getElem (hl ▸ hk : k < Y.length)
    rw [Option.map_some', headD_drop hy, hy, h k p _ hp hy]


/-- What one field contributes to the walk, both loops together. -/
def fieldFound (f : FieldMeta) (ft : GoType) (x : Value) : List FieldInfo :=
  (firstField cfg f ft x).2.fields ++ (secondField cfg f ft (firstField cfg f ft x).1).2.fields

theorem mem_collectFields_struct {fs : List (FieldMeta × GoType)} {v : Value} {fi : FieldInfo} :
    fi ∈ (collectFields cfg (.struct fs) v).2.fields ↔
      ∃ (k : Nat) (p : FieldMeta × GoType) (fi' : FieldInfo), fs[k]? = some p ∧
        fi' ∈ fieldFound cfg p.1 p.2 ((v.fieldsOf.drop k).headD p.2.zero) ∧
        fi = { fi' with path := .field k :: fi'.path } := by
  simp only [collectFields_struct, Found.fields_append, List.mem_append, mem_numbered,
    zipFields_getElem?, Option.map_eq_some', fieldFound, Nat.zero_add]
  constructor
  · rintro (⟨k, r, fi', ⟨p, hp, rfl⟩, h, rfl⟩ | ⟨k, r, fi', ⟨p, hp, rfl⟩, h, rfl⟩)
    · exact ⟨k, p, fi', hp, .inl h, rfl⟩
    · exact ⟨k, p, fi', hp, .inr h, rfl⟩
  · rintro ⟨k, p, fi', hp, h | h, rfl⟩
    · exact .inl ⟨k, _, fi', ⟨p, hp, rfl⟩, h, rfl⟩
    · exact .inr ⟨k, _, fi', ⟨p, hp, rfl⟩, h, rfl⟩

theorem taggedField_fields (f : FieldMeta) (ft : GoType) (raw : Bytes) :
    (taggedField cfg f ft raw).fields = [] ∨
      ∃ fi, (taggedField cfg f ft raw).fields = [fi] ∧ fi.path = [] := by
  unfold taggedField
  split
  · simp
  · split
    · simp
    · split <;> simp

theorem tagFound_fields (f : FieldMeta) (ft : GoType) :
    (tagFound cfg f ft).fields = [] ∨ ∃ fi, (tagFound cfg f ft).fields = [fi] ∧ fi.path = [] := by
  unfold tagFound
  split
  · exact taggedField_fields cfg f ft _
  · exact .inl rfl

theorem tagFound_of_tag_none {f : FieldMeta} (h : f.tag = none) (ft : GoType) :
    tagFound cfg f ft = {} := by
  unfold tagFound; rw [h]; cases f.exported <;> rfl

/-- A field found by the walk is found by the first loop or by the second, never both. -/
theorem fieldFound_exclusive (f : FieldMeta) (ft : GoType) (x y : Value) :
    (firstField cfg f ft x).2.fields = [] ∨ (secondField cfg f ft y).2.fields = [] := by
  unfold firstField secondField
  by_cases ha : f.anonymous
  · exact .inr (by simp [ha])
  · cases ht : f.tag
    · exact .inl (by simp [ha, tagFound_of_tag_none cfg ht])
    · exact .inr (by simp [ha, ht])

/-- The three ways a field contributes: an embedded struct walked as a whole, a tagged
field collected itself, an untagged field walked by the second loop. -/
theorem fieldFound_cases {f : FieldMeta} {ft : GoType} {x : Value} {fi : FieldInfo}
    (h : fi ∈ fieldFound cfg f ft x) :
    ((∀ y, fieldWalk cfg f ft y = (collectFields cfg ft y).1) ∧
        fi ∈ (collectFields cfg ft x).2.fields) ∨
      ((∀ y, fieldWalk cfg f ft y = y) ∧ fi.path = []) ∨
      ((∀ y, fieldWalk cfg f ft y = (nestedField cfg ft y).1) ∧
        fi ∈ (nestedField cfg ft x).2.fields) := by
  unfold fieldFound at h
  by_cases ha : f.anonymous ∧ ft.kind = .struct
  · have hf : ∀ y, firstField cfg f ft y = collectFields cfg ft y := fun _ => if_pos ha
    have hs : ∀ y, secondField cfg f ft y = (y, {}) := fun _ => if_pos (.inl ha.1)
    refine .inl ⟨fun y => by simp only [fieldWalk, hf, hs], ?_⟩
    simpa [hf, hs] using h
  · have hf : ∀ y, firstField cfg f ft y = (y, tagFound cfg f ft) := fun _ => if_neg ha
    by_cases hs : f.anonymous ∨ f.exported = false ∨ f.tag.isSome
    · have hs' : ∀ y, secondField cfg f ft y = (y, {}) := fun _ => if_pos hs
      refine .inr (.inl ⟨fun y => by simp only [fieldWalk, hf, hs'], ?_⟩)
      simp only [hf, hs', Found.fields_empty, List.append_nil] at h
      rcases tagFound_fields cfg f ft with h' | ⟨fi', h', hp⟩
      · simp [h'] at h
      · simp only [h', List.mem_singleton] at h; exact h ▸ hp
    · have hs' : ∀ y, secondField cfg f ft y = nestedField cfg ft y := fun _ => if_neg hs
      have ht : f.tag = none := (by simpa using hs : _ ∧ _ ∧ _).2.2
      refine .inr (.inr ⟨fun y => by simp only [fieldWalk, hf, hs'], ?_⟩)
      simpa [hf, hs', tagFound_of_tag_none cfg ht] using h

theorem walked_struct {fs : List (FieldMeta × GoType)} {v : Value} (h : Walked cfg (.struct fs) v) :
    ∃ Y, v = .struct Y ∧ zipFields (fieldWalk cfg) fs Y = Y := by
  rw [Walked, collectFields_struct] at h
  rcases v with _ | _ | _ | _ | _ | _ | _ | Y | _ <;> simp [Value.fieldsOf] at h
  exact ⟨Y, rfl, h⟩

theorem walked_of_fieldWalk {f : FieldMeta} {ft : GoType} {y : Value}
    (hw : ∀ y, fieldWalk cfg f ft y = (collectFields cfg ft y).1) (hy : fieldWalk cfg f ft y = y) :
    Walked cfg ft y := (hw y).symm.trans hy

/-- A field collected from a walked struct: found by the loops of one field, in that
field's value, which both loops leave as it is. -/
theorem mem_walked_struct {fs : List (FieldMeta × GoType)} {v : Value} {fi : FieldInfo}
    (hv : Walked cfg (.struct fs) v) (hfi : fi ∈ (collectFields cfg (.struct fs) v).2.fields) :
    ∃ Y k p y fi', v = .struct Y ∧ zipFields (fieldWalk cfg) fs Y = Y ∧ Y.length = fs.length ∧
      fs[k]? = some p ∧ Y[k]? = some y ∧ fieldWalk cfg p.1 p.2 y = y ∧ fi' ∈ fieldFound cfg p.1 p.2 y ∧
      fi = { fi' with path := .field k :: fi'.path } := by
  obtain ⟨k, p, fi', hp, hfi', rfl⟩ := (mem_collectFields_struct cfg).mp hfi
  obtain ⟨Y, rfl, hY⟩ := walked_struct cfg hv
  have hl : Y.length = fs.length := by
    conv_lhs => rw [← hY]
    exact length_zipFields fs Y
  obtain ⟨hk, -⟩ := List.getElem?_eq_some_iff.mp hp
  have hy := List.getElem?_eq_getElem (hl ▸ hk : k < Y.length)
  simp only [Value.fieldsOf, headD_drop hy] at hfi'
  exact ⟨Y, k, p, _, fi', rfl, hY, hl, hp, hy, zipFields_fixed hY hp hy, hfi', rfl⟩

/-- The second loop collects in an untagged struct field only when the type has tags, and
then as collectFields does. -/
theorem mem_nestedField_struct {fs : List (FieldMeta × GoType)} {v : Value} {fi : FieldInfo}
    (hv : (nestedField cfg (.struct fs) v).1 = v) (hfi : fi ∈ (nestedField cfg (.struct fs) v).2.fields) :
    hasSecretTagsFields fs = true ∧ Walked cfg (.struct fs) v ∧
      fi ∈ (collectFields cfg (.struct fs) v).2.fields := by
  rw [nestedField_struct] at hv hfi
  split at hfi
  · simp only [*, if_true] at hv
    exact ⟨‹_›, hv, hfi⟩
  · simp at hfi

/-- The second loop collects through a pointer field only from a non-nil pointer to a struct
type with tags, whose target the walk leaves as it is. -/
theorem mem_nestedField_ptr {e : GoType} {v : Value} {fi : FieldInfo}
    (hv : (nestedField cfg (.ptr e) v).1 = v) (hfi : fi ∈ (nestedField cfg (.ptr e) v).2.fields) :
    ∃ y fi', v = .ptr (some y) ∧ e.kind = .struct ∧ hasSecretTags e = true ∧ Walked cfg e y ∧
      fi' ∈ (collectFields cfg e y).2.fields ∧ fi = { fi' with path := .elem :: fi'.path } := by
  rw [nestedField_ptr] at hv hfi
  obtain ⟨y, rfl⟩ | hv' : (∃ y, v = .ptr (some y)) ∨ ∀ y, v ≠ .ptr (some y) := by
    rcases v with _ | _ | _ | _ | _ | _ | (_ | y) | _ | _ <;> simp
  · dsimp only at hv hfi
    split_ifs at hv hfi with h1 h2
    · simp only [Value.ptr.injEq, Option.some.injEq] at hv
      simp only [Found.fields_under, List.mem_map] at hfi
      obtain ⟨fi', hfi', rfl⟩ := hfi
      exact ⟨y, fi', rfl, h1, h2, hv, hfi', rfl⟩
    all_goals simp at hfi
  · split_ifs at hv hfi <;> first | (dsimp only at hv; exact absurd hv.symm (hv' _)) | simp at hfi

/-- In a walked record every collected field exists. -/
theorem collectFields_get_isSome (t : GoType) :
    (∀ v, Walked cfg t v → ∀ fi ∈ (collectFields cfg t v).2.fields, (v.get fi.path).isSome) ∧
      ∀ v, (nestedField cfg t v).1 = v → ∀ fi ∈ (nestedField cfg t v).2.fields,
        (v.get fi.path).isSome := by
  induction t using GoType.fieldInduction with
  | hstruct fs ih =>
    have h : ∀ v, Walked cfg (.struct fs) v → ∀ fi ∈ (collectFields cfg (.struct fs) v).2.fields,
        (v.get fi.path).isSome := by
      intro v hv fi hfi
      obtain ⟨Y, k, p, y, fi', rfl, -, -, hp, hy, hfix, hfi', rfl⟩ := mem_walked_struct cfg hv hfi
      simp only [Value.get_struct_cons, hy, Option.bind_some]
      rcases fieldFound_cases cfg hfi' with ⟨hw, hc⟩ | ⟨-, hnil⟩ | ⟨hw, hn⟩
      · exact (ih p (List.getElem?_mem hp)).1 _ (walked_of_fieldWalk cfg hw hfix) fi' hc
      · simp [hnil]
      · exact (ih p (List.getElem?_mem hp)).2 _ ((hw _).symm.trans hfix) fi' hn
    refine ⟨h, fun v hv fi hfi => ?_⟩
    obtain ⟨-, hw, hfi⟩ := mem_nestedField_struct cfg hv hfi
    exact h v hw fi hfi
  | hptr e ih =>
    refine ⟨fun v _ fi hfi => by simp [collectFields] at hfi, fun v hv fi hfi => ?_⟩
    obtain ⟨y, fi', rfl, -, -, hy, hfi', rfl⟩ := mem_nestedField_ptr cfg hv hfi
    simpa using ih.1 y hy fi' hfi'
  | hnamed n u ih => exact ih
  | hleaf t h0 h1 h2 =>
    simp [collectFields_leaf cfg h1 h2, nestedField_leaf cfg h0 h1 h2]

/-- Setting a collected field of a walked record, or a part of it, leaves the record
walked: the walk never looks at the value of a tagged field. -/
theorem walked_set (t : GoType) :
    (∀ v, Walked cfg t v → ∀ fi ∈ (collectFields cfg t v).2.fields, ∀ q x,
        Walked cfg t (v.set (fi.path ++ q) x)) ∧
      ∀ v, (nestedField cfg t v).1 = v → ∀ fi ∈ (nestedField cfg t v).2.fields, ∀ q x,
        (nestedField cfg t (v.set (fi.path ++ q) x)).1 = v.set (fi.path ++ q) x := by
  induction t using GoType.fieldInduction with
  | hstruct fs ih =>
    have h : ∀ v, Walked cfg (.struct fs) v → ∀ fi ∈ (collectFields cfg (.struct fs) v).2.fields,
        ∀ q x, Walked cfg (.struct fs) (v.set (fi.path ++ q) x) := by
      intro v hv fi hfi q x
      obtain ⟨Y, k, p, y, fi', rfl, hY, hl, hp, hy, hfix, hfi', rfl⟩ := mem_walked_struct cfg hv hfi
      have hnew : fieldWalk cfg p.1 p.2 (y.set (fi'.path ++ q) x) = y.set (fi'.path ++ q) x := by
        have hmem := List.getElem?_mem hp
        rcases fieldFound_cases cfg hfi' with ⟨hw, hc⟩ | ⟨hw, -⟩ | ⟨hw, hn⟩
        · rw [hw]; exact (ih p hmem).1 _ (walked_of_fieldWalk cfg hw hfix) fi' hc q x
        · exact hw _
        · rw [hw]; exact (ih p hmem).2 _ ((hw _).symm.trans hfix) fi' hn q x
      rw [List.cons_append, Value.set_struct_cons, Walked, collectFields_struct]
      simp only [Value.fieldsOf]
      congr 1
      refine zipFields_eq_self (by simp [hl]) fun m q z hq hz => ?_
      rw [List.getElem?_modify] at hz
      by_cases hm : k = m
      · subst hm
        rw [hp] at hq
        cases hq
        simp only [hy, Option.map_eq_map, Option.map_some', Option.some.injEq, if_true] at hz
        exact hz ▸ hnew
      · simp only [hm, if_false, Option.map_eq_map, Option.map_id'] at hz
        exact zipFields_fixed hY hq hz
    refine ⟨h, fun v hv fi hfi q x => ?_⟩
    obtain ⟨hs, hw, hfi⟩ := mem_nestedField_struct cfg hv hfi
    rw [nestedField_struct, if_pos hs]
    exact h v hw fi hfi q x
  | hptr e ih =>
    refine ⟨fun v _ fi hfi => by simp [collectFields] at hfi, fun v hv fi hfi q x => ?_⟩
    obtain ⟨y, fi', rfl, h1, h2, hy, hfi', rfl⟩ := mem_nestedField_ptr cfg hv hfi
    rw [List.cons_append, Value.set_ptr_cons, nestedField_ptr]
    simp only [h1, h2, if_true]
    rw [ih.1 y hy fi' hfi' q x]
  | hnamed n u ih => exact ih
  | hleaf t h0 h1 h2 =>
    simp [collectFields_leaf cfg h1 h2, nestedField_leaf cfg h0 h1 h2]

theorem mem_zipFields {α : Type} {g : FieldMeta → GoType → Value → α} {r : α} :
    ∀ {fs vs}, r ∈ zipFields g fs vs → ∃ p ∈ fs, ∃ x, r = g p.1 p.2 x
  | [], _, h => by simp [zipFields] at h
  | (f, ft) :: fs, vs, h => by
    rcases List.mem_cons.mp h with rfl | h
    · exact ⟨(f, ft), .head _, _, rfl⟩
    · obtain ⟨p, hp, x, rfl⟩ := mem_zipFields h
      exact ⟨p, .tail _ hp, x, rfl⟩

theorem pairwise_under {f : Found} (s : Step) (h : (f.fields.map (·.path)).Pairwise Path.Disjoint) :
    ((f.under s).fields.map (·.path)).Pairwise Path.Disjoint := by
  have e : (f.under s).fields.map (·.path) = (f.fields.map (·.path)).map (s :: ·) := by
    simp [List.map_map, Function.comp_def]
  rw [e]
  exact List.Pairwise.map _ (fun a b hab => Path.disjoint_cons_cons.mpr (.inr hab)) h

theorem numbered_pairwise :
    ∀ {j : Nat} {rs : List Found}, (∀ r ∈ rs, (r.fields.map (·.path)).Pairwise Path.Disjoint) →
      ((numbered j rs).fields.map (·.path)).Pairwise Path.Disjoint
  | _, [], _ => by simp [numbered]
  | j, r :: rs, h => by
    simp only [numbered, Found.fields_append, List.map_append, List.pairwise_append]
    refine ⟨pairwise_under _ (h r (.head _)), numbered_pairwise (fun r hr => h r (.tail _ hr)), ?_⟩
    simp only [Found.fields_under, List.map_map, List.mem_map, Function.comp_def]
    rintro _ ⟨a, -, rfl⟩ _ ⟨b, hb, rfl⟩
    obtain ⟨k, r', b', -, -, rfl⟩ := mem_numbered.mp hb
    exact Path.disjoint_cons_cons.mpr (.inl (by simp only [ne_eq, Step.field.injEq]; omega))

theorem numbered_cross {A B : List Found} (h : ∀ (k : Nat) (a b : Found), A[k]? = some a → B[k]? = some b →
      a.fields = [] ∨ b.fields = []) :
    ∀ x ∈ (numbered 0 A).fields.map (·.path), ∀ y ∈ (numbered 0 B).fields.map (·.path),
      Path.Disjoint x y := by
  simp only [List.mem_map]
  rintro _ ⟨a, ha, rfl⟩ _ ⟨b, hb, rfl⟩
  obtain ⟨k, ra, a', hka, ha', rfl⟩ := mem_numbered.mp ha
  obtain ⟨m, rb, b', hmb, hb', rfl⟩ := mem_numbered.mp hb
  refine Path.disjoint_cons_cons.mpr (.inl fun hkm => ?_)
  simp only [Nat.zero_add, Step.field.injEq] at hkm
  subst hkm
  rcases h k ra rb hka hmb with h' | h' <;> simp [h'] at ha' hb'

/-- The collected fields are distinct places of the record: no path is a prefix of
another. -/
theorem collectFields_disjoint (t : GoType) :
    (∀ v, ((collectFields cfg t v).2.fields.map (·.path)).Pairwise Path.Disjoint) ∧
      ∀ v, ((nestedField cfg t v).2.fields.map (·.path)).Pairwise Path.Disjoint := by
  induction t using GoType.fieldInduction with
  | hstruct fs ih =>
    have h : ∀ v, ((collectFields cfg (.struct fs) v).2.fields.map (·.path)).Pairwise Path.Disjoint := by
      intro v
      rw [collectFields_struct, Found.fields_append, List.map_append, List.pairwise_append]
      refine ⟨numbered_pairwise fun r hr => ?_, numbered_pairwise fun r hr => ?_, numbered_cross ?_⟩
      · obtain ⟨p, hp, x, rfl⟩ := mem_zipFields hr
        unfold firstField; split
        · exact (ih p hp).1 x
        · rcases tagFound_fields cfg p.1 p.2 with h' | ⟨fi, h', -⟩ <;> simp [h']
      · obtain ⟨p, hp, x, rfl⟩ := mem_zipFields hr
        unfold secondField; split
        · simp
        · exact (ih p hp).2 _
      · intro k a b ha hb
        rw [zipFields_getElem?] at ha hb
        obtain ⟨p, hp, rfl⟩ := Option.map_eq_some'.mp ha
        obtain ⟨q, hq, rfl⟩ := Option.map_eq_some'.mp hb
        rw [hp] at hq; cases hq
        exact fieldFound_exclusive cfg _ _ _ _
    refine ⟨h, fun v => ?_⟩
    rw [nestedField_struct]; split
    · exact h v
    · simp
  | hptr e ih =>
    refine ⟨fun v => by simp [collectFields], fun v => ?_⟩
    rw [nestedField_ptr]
    split_ifs <;> first | exact pairwise_under _ (ih.1 _) | simp
  | hnamed n u ih => exact ih
  | hleaf t h0 h1 h2 =>
    simp [collectFields_leaf cfg h1 h2, nestedField_leaf cfg h0 h1 h2]

/-! ### Providers that change their answers -/

/-- Whether a provider implements VersionedProvider. -/
def Provider.versioned (p : Provider) : Bool := p.getVersion.isSome

/-- Two configurations whose providers differ at most in their answers: the same schemes
and default are bound, to providers that implement VersionedProvider alike. -/
def ResolverConfig.SameShape (c c' : ResolverConfig) : Prop :=
  (∀ s, (c.providers s).map Provider.versioned = (c'.providers s).map Provider.versioned) ∧
    c.defaultProvider.map Provider.versioned = c'.defaultProvider.map Provider.versioned

/-- A collected field without its provider. -/
def FieldInfo.site (fi : FieldInfo) : String × Path × GoType × ParsedTag × Bytes × Bool :=
  (fi.fieldName, fi.path, fi.type, fi.tag, fi.providerName, fi.isVersioned)

/-- What a walk found, up to the providers. -/
def Found.sites (f : Found) : List (String × Path × GoType × ParsedTag × Bytes × Bool) × List GoError :=
  (f.fields.map FieldInfo.site, f.errs)

theorem Found.sites_append {a b a' b' : Found} (ha : a.sites = a'.sites) (hb : b.sites = b'.sites) :
    (a ++ b).sites = (a' ++ b').sites := by
  simp only [Found.sites, Prod.mk.injEq] at *
  simp [ha, hb]

theorem Found.sites_under {a a' : Found} (s : Step) (h : a.sites = a'.sites) :
    (a.under s).sites = (a'.under s).sites := by
  simp only [Found.sites, Prod.mk.injEq, Found.fields_under, Found.errs_under, List.map_map] at *
  refine ⟨?_, h.2⟩
  have := congrArg (List.map fun x : String × Path × GoType × ParsedTag × Bytes × Bool =>
    (x.1, s :: x.2.1, x.2.2)) h.1
  simpa [List.map_map, Function.comp_def, FieldInfo.site] using this

theorem sites_numbered : ∀ {j : Nat} {rs rs' : List Found}, rs.map Found.sites = rs'.map Found.sites →
    (numbered j rs).sites = (numbered j rs').sites
  | _, [], [], _ => rfl
  | _, _ :: _, _ :: _, h => by
    simp only [List.map_cons, List.cons.injEq] at h
    exact Found.sites_append (Found.sites_under _ h.1) (sites_numbered h.2)

theorem providerFor_sameShape {c c' : ResolverConfig} (h : c.SameShape c') (name : String)
    (tag : ParsedTag) :
    (providerFor c name tag).map (fun p => (p.1.versioned, p.2)) =
      (providerFor c' name tag).map (fun p => (p.1.versioned, p.2)) := by
  unfold providerFor
  split
  · have := h.1 tag.scheme
    cases hp : c.providers tag.scheme <;> cases hp' : c'.providers tag.scheme <;>
      simp_all [Except.map]
  · have := h.2
    cases hp : c.defaultProvider <;> cases hp' : c'.defaultProvider <;> simp_all [Except.map]

theorem taggedField_sameShape {c c' : ResolverConfig} (h : c.SameShape c') (f : FieldMeta)
    (ft : GoType) (raw : Bytes) : (taggedField c f ft raw).sites = (taggedField c' f ft raw).sites := by
  unfold taggedField
  split
  · rfl
  · rename_i tag _
    have := providerFor_sameShape h f.name tag
    rcases hp : providerFor c f.name tag with e | ⟨p, n⟩ <;>
      rcases hp' : providerFor c' f.name tag with e' | ⟨p', n'⟩ <;> simp_all [Except.map]
    obtain ⟨hv, rfl⟩ := this
    simp only [Provider.versioned] at hv
    cases h1 : p.getVersion <;> cases h2 : p'.getVersion <;> simp_all <;>
      first | rfl | (split <;> rfl)

/-- Configurations of the same shape walk a record alike: the same allocations, and the
same fields and errors up to the providers. -/
theorem collectFields_sameShape {c c' : ResolverConfig} (h : c.SameShape c') (t : GoType) :
    (∀ v, (collectFields c t v).1 = (collectFields c' t v).1 ∧
        (collectFields c t v).2.sites = (collectFields c' t v).2.sites) ∧
      ∀ v, (nestedField c t v).1 = (nestedField c' t v).1 ∧
        (nestedField c t v).2.sites = (nestedField c' t v).2.sites := by
  induction t using GoType.fieldInduction with
  | hstruct fs ih =>
    have hf : ∀ p ∈ fs, ∀ v, (firstField c p.1 p.2 v).1 = (firstField c' p.1 p.2 v).1 ∧
        (firstField c p.1 p.2 v).2.sites = (firstField c' p.1 p.2 v).2.sites := by
      intro p hp v
      unfold firstField tagFound
      split
      · exact (ih p hp).1 v
      · refine ⟨rfl, ?_⟩
        split
        · exact taggedField_sameShape h _ _ _
        · rfl
    have hs : ∀ p ∈ fs, ∀ v, (secondField c p.1 p.2 v).1 = (secondField c' p.1 p.2 v).1 ∧
        (secondField c p.1 p.2 v).2.sites = (secondField c' p.1 p.2 v).2.sites := by
      intro p hp v
      unfold secondField
      split
      · exact ⟨rfl, rfl⟩
      · exact (ih p hp).2 v
    have hc : ∀ v, (collectFields c (.struct fs) v).1 = (collectFields c' (.struct fs) v).1 ∧
        (collectFields c (.struct fs) v).2.sites = (collectFields c' (.struct fs) v).2.sites := by
      intro v
      rw [collectFields_struct, collectFields_struct]
      refine ⟨congrArg Value.struct (zipFields_congr (fun p hp x => ?_) _),
        Found.sites_append (sites_numbered ?_) (sites_numbered ?_)⟩
      · simp only [fieldWalk, (hf p hp x).1, (hs p hp _).1]
      · rw [zipFields_map, zipFields_map]
        exact zipFields_congr (fun p hp x => (hf p hp x).2) _
      · rw [zipFields_map, zipFields_map]
        exact zipFields_congr (fun p hp x => by rw [(hf p hp x).1]; exact (hs p hp _).2) _
    refine ⟨hc, fun v => ?_⟩
    rw [nestedField_struct, nestedField_struct]
    split
    · exact hc v
    · exact ⟨rfl, rfl⟩
  | hptr e ih =>
    refine ⟨fun v => ⟨rfl, rfl⟩, fun v => ?_⟩
    rw [nestedField_ptr, nestedField_ptr]
    split_ifs
    · dsimp only
      exact ⟨by rw [(ih.1 _).1], Found.sites_under _ (ih.1 _).2⟩
    all_goals exact ⟨rfl, rfl⟩
  | hnamed n u ih => exact ih
  | hleaf t h0 h1 h2 => simp [collectFields_leaf _ h1 h2, nestedField_leaf _ h0 h1 h2]

theorem ResolverConfig.SameShape.refl (c : ResolverConfig) : c.SameShape c := ⟨fun _ => rfl, rfl⟩

/-- Whether a walk changes a record does not depend on the providers' answers. -/
theorem walked_sameShape {c c' : ResolverConfig} (h : c.SameShape c') {t : GoType} {v : Value} :
    Walked c t v ↔ Walked c' t v := by
  unfold Walked; rw [((collectFields_sameShape h t).1 v).1]

/-- The checks validateStruct makes on an exported tagged field: the tag, the provider,
and the field type (for Versioned[T], the type T). -/
def validateTagged (f : FieldMeta) (ft : GoType) (raw : Bytes) : List GoError :=
  match parseTag raw with
  | .error e => [.field f.name e]
  | .ok tag =>
    let provider : List GoError :=
      if tag.scheme ≠ [] then
        if (cfg.providers tag.scheme).isSome then [] else [.unknownProvider f.name tag.scheme tag.uri]
      else if cfg.defaultProvider.isSome then [] else [.noDefaultProvider f.name tag.key]
    let inner :=
      if isVersionedType ft then
        match ft.fields with
        | (_, t0) :: _ => t0
        | [] => ft
      else ft
    provider ++ if isSupportedType inner then [] else [.unsupportedType f.name ft.name]

mutual
/-- validateStruct: the defects of the tagged fields of a struct type, walking embedded
structs (by value or by pointer) and untagged exported fields whose struct type has tags. -/
def validateStruct : GoType → List GoError
  | .struct fs => validateFields fs
  | .named _ u => validateStruct u
  | _ => []
def validateFields : List (FieldMeta × GoType) → List GoError
  | [] => []
  | (f, ft) :: fs =>
    (if f.anonymous then validateDeref (fun _ => true) ft
     else if f.exported = false then []
     else
       match f.tag with
       | none => validateDeref hasSecretTags ft
       | some raw => validateTagged cfg f ft raw) ++ validateFields fs
/-- validateStruct on a field type after one pointer dereference, when that is a struct
for which `need` holds. -/
def validateDeref (need : GoType → Bool) : GoType → List GoError
  | .ptr e => if e.kind = .struct ∧ need e then validateStruct e else []
  | .named n u =>
    if u.kind = .ptr then validateDeref need u
    else if u.kind = .struct ∧ need (.named n u) then validateStruct u else []
  | .struct fs => if need (.struct fs) then validateFields fs else []
  | _ => []
end

/-- Validate on a record of type `t`: nil exactly when the list is empty. -/
def validate (t : GoType) : List GoError :=
  if t.kind = .struct then validateStruct cfg t
  else [.other "secrets: dst must point to a struct"]

end Walk

end GoSecrets
