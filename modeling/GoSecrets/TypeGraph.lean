import GoSecrets.Walk

/-! Go types that reach themselves through a pointer field (resolver.go): hasSecretTags,
validateStruct and collectFields over a table of struct types, with fuel for their nested calls. -/
namespace GoSecrets.TypeGraph

/-- A field type: a tree type, a pointer, or a declared struct type by name. -/
inductive TypeExpr where
  | leaf (t : GoType)
  | ptr (e : TypeExpr)
  | ref (name : String)
deriving DecidableEq, Repr

/-- The declared struct types: the fields of each. -/
abbrev Decls := String → List (FieldMeta × TypeExpr)

section Walks
variable (d : Decls)

/-! ### hasSecretTags -/

/-- The field-type test of hasSecretTags: dereference a pointer once, then a struct with
tags; `rec` answers for a declared struct type. -/
def belowTagged (rec : String → Option Bool) : TypeExpr → Option Bool
  | .leaf t => some (hasSecretTagsBelow t)
  | .ptr (.leaf t) => some (t.kind == .struct && hasSecretTags t)
  | .ptr (.ptr _) => some false
  | .ptr (.ref n) | .ref n => rec n

/-- The loop of hasSecretTags over the fields of one struct type. -/
def anyTagged (rec : String → Option Bool) : List (FieldMeta × TypeExpr) → Option Bool
  | [] => some false
  | (f, ft) :: fs =>
    if f.tag.isSome then some true
    else (belowTagged rec ft).bind fun b => if b then some true else anyTagged rec fs

/-- hasSecretTags(t) for the declared struct type `t`, with `n` nested calls allowed: `none`
when they run out. The Go call returns exactly when some `n` suffices. -/
def hasSecretTagsN : Nat → String → Option Bool
  | 0, _ => none
  | n + 1, s => anyTagged (hasSecretTagsN n) (d s)

/-! ### validateStruct -/

variable (cfg : ResolverConfig) (check : FieldMeta → TypeExpr → Bytes → List GoError)

/-- validateStruct on a field type after one dereference, when that is a struct type for
which `need` holds: the tree model's validateDeref on a tree type, `rec` on a declared one. -/
def validateBelow (rec : String → Option (List GoError)) (need : String → Option Bool)
    (needTree : GoType → Bool) : TypeExpr → Option (List GoError)
  | .leaf t => some (validateDeref cfg needTree t)
  | .ptr (.leaf t) => some (validateDeref cfg needTree (.ptr t))
  | .ptr (.ptr _) => some []
  | .ptr (.ref n) | .ref n => (need n).bind fun b => if b then rec n else some []

/-- validateStruct's work on one field: an embedded struct is validated, an untagged
exported struct with tags is validated, and an exported tagged field gets `check`, the work
that looks at the field's own type only (parseTag, the provider, isSupportedType). -/
def validateFieldG (rec : String → Option (List GoError)) (hst : String → Option Bool)
    (f : FieldMeta) (ft : TypeExpr) : Option (List GoError) :=
  if f.anonymous then validateBelow cfg rec (fun _ => some true) (fun _ => true) ft
  else if f.exported = false then some []
  else match f.tag with
    | none => validateBelow cfg rec hst hasSecretTags ft
    | some raw => some (check f ft raw)

/-- The loop of validateStruct over the fields of one struct type. -/
def validateFieldsG (rec : String → Option (List GoError)) (hst : String → Option Bool) :
    List (FieldMeta × TypeExpr) → Option (List GoError)
  | [] => some []
  | (f, ft) :: fs => do
    let here ← validateFieldG cfg check rec hst f ft
    let rest ← validateFieldsG rec hst fs
    pure (here ++ rest)

/-- validateStruct(t) for the declared struct type `t`. -/
def validateN : Nat → String → Option (List GoError)
  | 0, _ => none
  | n + 1, s => validateFieldsG cfg check (validateN n) (hasSecretTagsN d n) (d s)

/-! ### collectFields -/

/-- The zero value of a field type; a declared struct type by value is zeroed through
`rec`, a pointer is nil. -/
def zeroBelow (rec : String → Option Value) : TypeExpr → Option Value
  | .leaf t => some t.zero
  | .ptr _ => some (.ptr none)
  | .ref n => rec n

/-- `reflect.New(t).Elem()` for the declared struct type `t`. -/
def zeroN : Nat → String → Option Value
  | 0, _ => none
  | n + 1, s => ((d s).mapM fun p => zeroBelow (zeroN n) p.2).map .struct

/-- The pointee of a non-nil pointer. -/
def pointee : Value → Option Value
  | .ptr (some y) => some y
  | _ => none

/-- The first loop's work on one field with value `x`: an embedded struct is walked. -/
def firstFieldG (rec : String → Value → Option Value) (f : FieldMeta) (ft : TypeExpr)
    (x : Value) : Option Value :=
  if f.anonymous then
    match ft with
    | .leaf t => some (if t.kind = .struct then (collectFields cfg t x).1 else x)
    | .ref n => rec n x
    | .ptr _ => some x
  else some x

/-- The second loop's work on one untagged exported field with value `x`: a nil pointer to
a struct type is set to a new zero struct, and a struct type with tags is walked. -/
def secondFieldG (rec : String → Value → Option Value) (zero : String → Option Value)
    (hst : String → Option Bool) (f : FieldMeta) (ft : TypeExpr) (x : Value) : Option Value :=
  if f.anonymous ∨ f.exported = false ∨ f.tag.isSome then some x
  else
    match ft with
    | .leaf t => some (nestedField cfg t x).1
    | .ptr (.leaf t) => some (nestedField cfg (.ptr t) x).1
    | .ptr (.ptr _) => some x
    | .ptr (.ref n) => do
      let y ← (pointee x).or (zero n)
      let b ← hst n
      if b then (rec n y).map fun y => .ptr (some y) else some (.ptr (some y))
    | .ref n => do
      let b ← hst n
      if b then rec n x else some x

/-- A loop over the fields and their values, a missing value read through `zero`. -/
def zipFieldsG (g : FieldMeta → TypeExpr → Value → Option Value) (zero : TypeExpr → Option Value) :
    List (FieldMeta × TypeExpr) → List Value → Option (List Value)
  | [], _ => some []
  | (f, ft) :: fs, vs => do
    let x ← vs.head?.or (zero ft)
    let y ← g f ft x
    let ys ← zipFieldsG g zero fs vs.tail
    pure (y :: ys)

/-- collectFields(sv) for a value of the declared struct type `t`: the record after the
allocations of its second loop. -/
def collectN : Nat → String → Value → Option Value
  | 0, _, _ => none
  | n + 1, s, v => do
    let vs1 ← zipFieldsG (firstFieldG cfg (collectN n)) (zeroBelow (zeroN d n)) (d s) v.fieldsOf
    let vs2 ← zipFieldsG (secondFieldG cfg (collectN n) (zeroN d n) (hasSecretTagsN d n))
      (zeroBelow (zeroN d n)) (d s) vs1
    pure (.struct vs2)

end Walks

/-! ### Declarations that reach themselves -/

/-- The tagged string field `Name` of Node. -/
def nameField : FieldMeta × TypeExpr := (⟨"Name", true, false, some (ascii "n")⟩, .leaf .string)

/-- The untagged field `Next *Node`. -/
def nextField : FieldMeta × TypeExpr := (⟨"Next", true, false, none⟩, .ptr (.ref "Node"))

/-- `type Node struct { Next *Node; Name string }`, with Name tagged `secret:"n"`. -/
def nextFirst : Decls := fun s => if s = "Node" then [nextField, nameField] else []

/-- The same type with Name declared first. -/
def nameFirst : Decls := fun s => if s = "Node" then [nameField, nextField] else []

/-- A zero Node with Name first. -/
def zeroNode : Value := .struct [.str [], .ptr none]

section Node
variable (cfg : ResolverConfig) (check : FieldMeta → TypeExpr → Bytes → List GoError)

theorem hasSecretTagsN_nextFirst : ∀ n, hasSecretTagsN nextFirst n "Node" = none
  | 0 => rfl
  | n + 1 => by
    simp only [hasSecretTagsN, nextFirst, if_true, nextField, anyTagged, Option.isSome_none,
      Bool.false_eq_true, if_false, belowTagged, hasSecretTagsN_nextFirst n, Option.none_bind]

theorem hasSecretTagsN_nameFirst (n : Nat) : hasSecretTagsN nameFirst (n + 1) "Node" = some true := rfl

theorem zeroN_nameFirst (n : Nat) : zeroN nameFirst (n + 1) "Node" = some zeroNode := rfl

theorem secondFieldG_next_none {rec : String → Value → Option Value}
    {zero : String → Option Value} {hst : String → Option Bool} (h : hst "Node" = none) (x : Value) :
    secondFieldG cfg rec zero hst nextField.1 nextField.2 x = none := by
  simp only [secondFieldG, nextField, Bool.false_eq_true, Bool.true_eq_false, Option.isSome_none,
    or_self, if_false, h, Option.bind_eq_bind, Option.none_bind, Option.bind_none]

theorem validateFieldsG_next (rec : String → Option (List GoError)) (hst : String → Option Bool)
    (fs : List (FieldMeta × TypeExpr)) :
    validateFieldsG cfg check rec hst (nextField :: fs) = (do
      let here ← (hst "Node").bind fun b => if b then rec "Node" else some []
      let rest ← validateFieldsG cfg check rec hst fs
      pure (here ++ rest)) := rfl

theorem validateFieldsG_none_of_tail {rec : String → Option (List GoError)}
    {hst : String → Option Bool} {f : FieldMeta} {ft : TypeExpr} {fs : List (FieldMeta × TypeExpr)}
    (h : validateFieldsG cfg check rec hst fs = none) :
    validateFieldsG cfg check rec hst ((f, ft) :: fs) = none := by
  simp only [validateFieldsG, h, Option.bind_eq_bind, Option.none_bind, Option.bind_none]

theorem zipFieldsG_none_of_head {g : FieldMeta → TypeExpr → Value → Option Value}
    {zero : TypeExpr → Option Value} {f : FieldMeta} {ft : TypeExpr} (fs : List (FieldMeta × TypeExpr))
    (h : ∀ x, g f ft x = none) (vs : List Value) : zipFieldsG g zero ((f, ft) :: fs) vs = none := by
  simp only [zipFieldsG, h, Option.bind_eq_bind, Option.none_bind, Option.bind_none]

theorem zipFieldsG_none_of_tail {g : FieldMeta → TypeExpr → Value → Option Value}
    {zero : TypeExpr → Option Value} {f : FieldMeta} {ft : TypeExpr} {fs : List (FieldMeta × TypeExpr)}
    (h : ∀ vs, zipFieldsG g zero fs vs = none) (vs : List Value) :
    zipFieldsG g zero ((f, ft) :: fs) vs = none := by
  simp only [zipFieldsG, h, Option.bind_eq_bind, Option.none_bind, Option.bind_none]

theorem collectN_none {d : Decls} {n : Nat} {s : String}
    (h : ∀ vs, zipFieldsG (secondFieldG cfg (collectN d cfg n) (zeroN d n) (hasSecretTagsN d n))
      (zeroBelow (zeroN d n)) (d s) vs = none) (v : Value) : collectN d cfg (n + 1) s v = none := by
  simp only [collectN, h, Option.bind_eq_bind, Option.none_bind, Option.bind_none]

theorem validateN_nextFirst : ∀ n, validateN nextFirst cfg check n "Node" = none
  | 0 => rfl
  | n + 1 => by
    rw [validateN, nextFirst, if_pos rfl, validateFieldsG_next, hasSecretTagsN_nextFirst]
    rfl

theorem collectN_nextFirst (n : Nat) (v : Value) : collectN nextFirst cfg n "Node" v = none := by
  cases n with
  | zero => rfl
  | succ n =>
    exact collectN_none cfg (zipFieldsG_none_of_head _
      (secondFieldG_next_none cfg (hasSecretTagsN_nextFirst n))) v

theorem validateN_nameFirst : ∀ n, validateN nameFirst cfg check n "Node" = none
  | 0 => rfl
  | 1 => rfl
  | n + 2 => by
    rw [validateN, nameFirst, if_pos rfl]
    refine validateFieldsG_none_of_tail cfg check ?_
    rw [validateFieldsG_next, hasSecretTagsN_nameFirst]
    simp only [Option.some_bind, if_true, validateN_nameFirst (n + 1), Option.bind_eq_bind,
      Option.none_bind]

theorem collectN_nameFirst : ∀ n v, collectN nameFirst cfg n "Node" v = none
  | 0, _ => rfl
  | 1, v => collectN_none cfg (zipFieldsG_none_of_tail
      (zipFieldsG_none_of_head _ (secondFieldG_next_none cfg rfl))) v
  | n + 2, v => by
    refine collectN_none cfg (zipFieldsG_none_of_tail
      (zipFieldsG_none_of_head _ fun x => ?_)) v
    simp only [secondFieldG, nextField, Bool.false_eq_true, Bool.true_eq_false, Option.isSome_none,
      or_self, if_false, hasSecretTagsN_nameFirst, zeroN_nameFirst, collectN_nameFirst (n + 1),
      Option.bind_eq_bind, Option.some_bind, if_true, Option.map_none', Option.bind_none]

theorem collectN_nameFirst_zeroNode (n : Nat) :
    collectN nameFirst cfg (n + 2) "Node" zeroNode =
      (collectN nameFirst cfg (n + 1) "Node" zeroNode).map fun y => .struct [.str [], .ptr (some y)] := by
  conv_lhs => rw [collectN]
  cases h : collectN nameFirst cfg (n + 1) "Node" zeroNode <;> rw [zeroNode] at h <;>
    simp [zipFieldsG, firstFieldG, secondFieldG, nameFirst, nameField, nextField, zeroNode,
      hasSecretTagsN_nameFirst, zeroN_nameFirst, zeroBelow, Value.fieldsOf, pointee, h]

/-- Node, with either field first, makes the walks recurse without end: with Next first
hasSecretTags(Node), validateStruct(Node) and collectFields on any Node never return; with
Name first validateStruct(Node) and collectFields on any Node never return, and each call of
collectFields on a zero Node walks a Node it has just allocated. -/
theorem node_walks_never_return :
    (∀ n, hasSecretTagsN nextFirst n "Node" = none ∧ validateN nextFirst cfg check n "Node" = none ∧
      ∀ v, collectN nextFirst cfg n "Node" v = none) ∧
    (∀ n, validateN nameFirst cfg check n "Node" = none ∧ ∀ v, collectN nameFirst cfg n "Node" v = none) ∧
    ∀ n, collectN nameFirst cfg (n + 2) "Node" zeroNode =
      (collectN nameFirst cfg (n + 1) "Node" zeroNode).map fun y => .struct [.str [], .ptr (some y)] :=
  ⟨fun n => ⟨hasSecretTagsN_nextFirst n, validateN_nextFirst cfg check n, collectN_nextFirst cfg n⟩,
    fun n => ⟨validateN_nameFirst cfg check n, collectN_nameFirst cfg n⟩, collectN_nameFirst_zeroNode cfg⟩

end Node

/-! ### Declarations that do not reach themselves

When every field names only declared types of lower rank, the three walks return once the
fuel exceeds the rank: the cycle is the whole of the failure above. -/

/-- The declared struct types a field type names. -/
def TypeExpr.refs : TypeExpr → List String
  | .leaf _ => []
  | .ptr e => e.refs
  | .ref n => [n]

/-- Every field of a declared type names only declared types of lower rank. -/
def Ranked (d : Decls) (r : String → Nat) : Prop :=
  ∀ s, ∀ p ∈ d s, ∀ m ∈ p.2.refs, r m < r s

theorem isSome_bind_of {α β : Type} {x : Option α} {f : α → Option β} (hx : x.isSome)
    (hf : ∀ a, (f a).isSome) : (x >>= f).isSome := by
  obtain ⟨a, rfl⟩ := Option.isSome_iff_exists.mp hx
  exact hf a

section Ranked
variable (cfg : ResolverConfig) (check : FieldMeta → TypeExpr → Bytes → List GoError)

theorem belowTagged_isSome {rec : String → Option Bool} :
    ∀ {ft : TypeExpr}, (∀ m ∈ ft.refs, (rec m).isSome) → (belowTagged rec ft).isSome
  | .leaf _, _ | .ptr (.leaf _), _ | .ptr (.ptr _), _ => rfl
  | .ptr (.ref n), h | .ref n, h => h n (List.mem_singleton_self n)

theorem anyTagged_isSome {rec : String → Option Bool} :
    ∀ {fs : List (FieldMeta × TypeExpr)}, (∀ p ∈ fs, ∀ m ∈ p.2.refs, (rec m).isSome) →
      (anyTagged rec fs).isSome
  | [], _ => rfl
  | (f, ft) :: fs, h => by
    unfold anyTagged
    split
    · rfl
    · refine isSome_bind_of (belowTagged_isSome (h _ (.head _))) fun b => ?_
      split
      · rfl
      · exact anyTagged_isSome fun p hp => h p (.tail _ hp)

theorem validateBelow_isSome {rec : String → Option (List GoError)} {need : String → Option Bool}
    {needTree : GoType → Bool} :
    ∀ {ft : TypeExpr}, (∀ m ∈ ft.refs, (rec m).isSome ∧ (need m).isSome) →
      (validateBelow cfg rec need needTree ft).isSome
  | .leaf _, _ | .ptr (.leaf _), _ | .ptr (.ptr _), _ => rfl
  | .ptr (.ref n), h | .ref n, h => by
    obtain ⟨hrec, hneed⟩ := h n (List.mem_singleton_self n)
    refine isSome_bind_of hneed fun b => ?_
    cases b
    · rfl
    · exact hrec

theorem validateFieldsG_isSome {rec : String → Option (List GoError)} {hst : String → Option Bool} :
    ∀ {fs : List (FieldMeta × TypeExpr)}, (∀ p ∈ fs, ∀ m ∈ p.2.refs, (rec m).isSome ∧ (hst m).isSome) →
      (validateFieldsG cfg check rec hst fs).isSome
  | [], _ => rfl
  | (f, ft) :: fs, h => by
    have hft := h _ (.head _)
    refine isSome_bind_of (f := fun here => (validateFieldsG cfg check rec hst fs).bind
      fun rest => some (here ++ rest)) ?_ fun _ =>
      isSome_bind_of (validateFieldsG_isSome fun p hp => h p (.tail _ hp)) fun _ => rfl
    unfold validateFieldG
    split
    · exact validateBelow_isSome cfg fun m hm => ⟨(hft m hm).1, rfl⟩
    · split
      · rfl
      · split
        · exact validateBelow_isSome cfg hft
        · rfl

theorem zeroBelow_isSome {rec : String → Option Value} :
    ∀ {ft : TypeExpr}, (∀ m ∈ ft.refs, (rec m).isSome) → (zeroBelow rec ft).isSome
  | .leaf _, _ | .ptr _, _ => rfl
  | .ref n, h => h n (List.mem_singleton_self n)

theorem mapM_isSome {α β : Type} {f : α → Option β} :
    ∀ {l : List α}, (∀ a ∈ l, (f a).isSome) → (l.mapM f).isSome
  | [], _ => rfl
  | a :: l, h => by
    rw [List.mapM_cons]
    exact isSome_bind_of (h a (.head _)) fun _ =>
      isSome_bind_of (mapM_isSome fun b hb => h b (.tail _ hb)) fun _ => rfl

theorem firstFieldG_isSome {rec : String → Value → Option Value} {f : FieldMeta} {ft : TypeExpr}
    (h : ∀ m ∈ ft.refs, ∀ x, (rec m x).isSome) (x : Value) : (firstFieldG cfg rec f ft x).isSome := by
  unfold firstFieldG
  split
  · split
    · rfl
    · exact h _ (List.mem_singleton_self _) x
    · rfl
  · rfl

theorem secondFieldG_isSome {rec : String → Value → Option Value} {zero : String → Option Value}
    {hst : String → Option Bool} {f : FieldMeta} {ft : TypeExpr}
    (h : ∀ m ∈ ft.refs, (∀ x, (rec m x).isSome) ∧ (zero m).isSome ∧ (hst m).isSome) (x : Value) :
    (secondFieldG cfg rec zero hst f ft x).isSome := by
  unfold secondFieldG
  split
  · rfl
  · split
    · rfl
    · rfl
    · rfl
    · rename_i n
      obtain ⟨hrec, hzero, hhst⟩ := h n (List.mem_singleton_self n)
      refine isSome_bind_of ?_ fun y => isSome_bind_of hhst fun b => ?_
      · cases pointee x
        · exact hzero
        · rfl
      · cases b
        · rfl
        · exact (Option.isSome_map').trans (hrec y)
    · rename_i n
      obtain ⟨hrec, -, hhst⟩ := h n (List.mem_singleton_self n)
      refine isSome_bind_of hhst fun b => ?_
      cases b
      · rfl
      · exact hrec x

theorem zipFieldsG_isSome {g : FieldMeta → TypeExpr → Value → Option Value}
    {zero : TypeExpr → Option Value} :
    ∀ {fs : List (FieldMeta × TypeExpr)}, (∀ p ∈ fs, (∀ x, (g p.1 p.2 x).isSome) ∧ (zero p.2).isSome) →
      ∀ vs, (zipFieldsG g zero fs vs).isSome
  | [], _, _ => rfl
  | (f, ft) :: fs, h, vs => by
    obtain ⟨hg, hz⟩ := h _ (.head _)
    refine isSome_bind_of (f := fun x => (g f ft x).bind fun y =>
      (zipFieldsG g zero fs vs.tail).bind fun ys => some (y :: ys)) ?_ fun x =>
      isSome_bind_of (hg x) fun _ =>
      isSome_bind_of (zipFieldsG_isSome (fun p hp => h p (.tail _ hp)) _) fun _ => rfl
    cases vs
    · exact hz
    · rfl

variable {d : Decls} {r : String → Nat} (hr : Ranked d r)
include hr

theorem hasSecretTagsN_isSome : ∀ n s, r s < n → (hasSecretTagsN d n s).isSome
  | n + 1, s, hs => anyTagged_isSome fun p hp m hm =>
    hasSecretTagsN_isSome n m (by have := hr s p hp m hm; omega)

theorem validateN_isSome : ∀ n s, r s < n → (validateN d cfg check n s).isSome
  | n + 1, s, hs => validateFieldsG_isSome cfg check fun p hp m hm =>
    have hm : r m < n := by have := hr s p hp m hm; omega
    ⟨validateN_isSome n m hm, hasSecretTagsN_isSome hr n m hm⟩

theorem zeroN_isSome : ∀ n s, r s < n → (zeroN d n s).isSome
  | n + 1, s, hs => (Option.isSome_map').trans <| mapM_isSome fun p hp => zeroBelow_isSome
    fun m hm => zeroN_isSome n m (by have := hr s p hp m hm; omega)

theorem collectN_isSome : ∀ n s v, r s < n → (collectN d cfg n s v).isSome
  | n + 1, s, v, hs => by
    have hrefs : ∀ p ∈ d s, ∀ m ∈ p.2.refs, r m < n := fun p hp m hm => by
      have := hr s p hp m hm; omega
    have hzero : ∀ p ∈ d s, (zeroBelow (zeroN d n) p.2).isSome := fun p hp =>
      zeroBelow_isSome fun m hm => zeroN_isSome hr n m (hrefs p hp m hm)
    refine isSome_bind_of (zipFieldsG_isSome (fun p hp => ⟨firstFieldG_isSome cfg fun m hm x =>
      collectN_isSome n m x (hrefs p hp m hm), hzero p hp⟩) _) fun _ =>
      isSome_bind_of (zipFieldsG_isSome (fun p hp => ⟨secondFieldG_isSome cfg fun m hm =>
        ⟨fun x => collectN_isSome n m x (hrefs p hp m hm), zeroN_isSome hr n m (hrefs p hp m hm),
          hasSecretTagsN_isSome hr n m (hrefs p hp m hm)⟩, hzero p hp⟩) _) fun _ => rfl

/-- On declarations where no type reaches itself, hasSecretTags, validateStruct and
collectFields return once the fuel exceeds the rank of the type. -/
theorem ranked_walks_return (s : String) (n : Nat) (hn : r s < n) :
    (hasSecretTagsN d n s).isSome ∧ (validateN d cfg check n s).isSome ∧
      ∀ v, (collectN d cfg n s v).isSome :=
  ⟨hasSecretTagsN_isSome hr n s hn, validateN_isSome cfg check hr n s hn,
    fun v => collectN_isSome cfg hr n s v hn⟩

end Ranked

/-- `type Outer struct { Inner *Inner }` with `type Inner struct { Name string }`, Name tagged. -/
def outerInner : Decls := fun s =>
  if s = "Outer" then [(⟨"Inner", true, false, none⟩, .ptr (.ref "Inner"))]
  else if s = "Inner" then [nameField] else []

/-- Outer has rank 1, Inner rank 0. -/
def outerInnerRank (s : String) : Nat := if s = "Outer" then 1 else 0

theorem outerInner_ranked : Ranked outerInner outerInnerRank := by
  intro s p hp m hm
  unfold outerInner at hp
  split_ifs at hp with h1 h2
  · subst h1
    simp only [List.mem_singleton] at hp
    subst hp
    simp only [TypeExpr.refs, List.mem_singleton] at hm
    subst hm
    decide
  · simp only [List.mem_singleton] at hp
    subst hp
    simp [nameField, TypeExpr.refs] at hm
  · simp at hp

theorem outerInner_walks_return :
    outerInnerRank "Outer" < 2 ∧ ((hasSecretTagsN outerInner 2 "Outer").isSome ∧
      (validateN outerInner (newResolver []) (fun _ _ _ => []) 2 "Outer").isSome ∧
      ∀ v, (collectN outerInner (newResolver []) 2 "Outer" v).isSome) :=
  ⟨by decide, ranked_walks_return (newResolver []) (fun _ _ _ => []) outerInner_ranked "Outer" 2
    (by decide)⟩

end GoSecrets.TypeGraph
