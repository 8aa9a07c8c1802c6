import GoSecrets.Resolve

/-! Validate against the walk of Resolve (resolver.go). Validate checks, without asking any
provider, the tags and providers that collectFields checks when Resolve walks a record.
Every error the walk reports, Validate reports too, with two exceptions. The first is
ErrVersioningNotSupported. The second is an error of an embedded field whose type is not
a struct: validateStruct never reads the `secret` tag of such a field. -/
namespace GoSecrets

/-- ErrVersioningNotSupported, which the walk reports and Validate does not check. -/
def GoError.isVersioningNotSupported : GoError → Bool
  | .versioningNotSupported _ _ => true
  | _ => false

mutual
/-- Whether a struct in `t`, reached through fields and pointers, has an exported embedded
field with a `secret` tag whose type is not a struct. -/
def embedsTaggedLeaf : GoType → Bool
  | .struct fs => embedsTaggedLeafFields fs
  | .ptr e => embedsTaggedLeaf e
  | .named _ u => embedsTaggedLeaf u
  | _ => false
def embedsTaggedLeafFields : List (FieldMeta × GoType) → Bool
  | [] => false
  | (f, ft) :: fs =>
    (f.anonymous && f.exported && f.tag.isSome && ft.kind != .struct) || embedsTaggedLeaf ft ||
      embedsTaggedLeafFields fs
end

theorem embedsTaggedLeafFields_eq_false : ∀ {fs : List (FieldMeta × GoType)},
    embedsTaggedLeafFields fs = false → ∀ p ∈ fs,
      (p.1.anonymous && p.1.exported && p.1.tag.isSome && p.2.kind != .struct) = false ∧
        embedsTaggedLeaf p.2 = false
  | [], _, _, hp => nomatch hp
  | (f, ft) :: fs, h, p, hp => by
    simp only [embedsTaggedLeafFields, Bool.or_eq_false_iff] at h
    rcases List.mem_cons.mp hp with rfl | hp
    · exact ⟨h.1.1, h.1.2⟩
    · exact embedsTaggedLeafFields_eq_false h.2 p hp

@[simp] theorem numbered_errs : ∀ (j : Nat) (rs : List Found), (numbered j rs).errs = rs.flatMap Found.errs
  | _, [] => rfl
  | j, r :: rs => by simp [numbered, numbered_errs (j + 1) rs]

section Validate
variable (cfg : ResolverConfig)

/-- The loop body of validateStruct on one field: what Validate reports for it. -/
def validateField (f : FieldMeta) (ft : GoType) : List GoError :=
  if f.anonymous then validateDeref cfg (fun _ => true) ft
  else if f.exported = false then []
  else
    match f.tag with
    | none => validateDeref cfg hasSecretTags ft
    | some raw => validateTagged cfg f ft raw

theorem validateFields_cons (f : FieldMeta) (ft : GoType) (fs : List (FieldMeta × GoType)) :
    validateFields cfg ((f, ft) :: fs) = validateField cfg f ft ++ validateFields cfg fs := rfl

theorem mem_validateFields {e : GoError} : ∀ {fs : List (FieldMeta × GoType)} {p : FieldMeta × GoType},
    p ∈ fs → e ∈ validateField cfg p.1 p.2 → e ∈ validateFields cfg fs
  | [], _, hp, _ => nomatch hp
  | (f, ft) :: fs, p, hp, he => by
    rw [validateFields_cons]
    rcases List.mem_cons.mp hp with rfl | hp
    · exact List.mem_append_left _ he
    · exact List.mem_append_right _ (mem_validateFields hp he)

/-- On a struct type, the check of an embedded field is validateStruct. -/
theorem validateDeref_true_of_struct {t : GoType} (ht : t.kind = .struct) :
    validateDeref cfg (fun _ => true) t = validateStruct cfg t := by
  cases t <;> simp_all [validateDeref, validateStruct, GoType.kind]

/-- Through a defined type, validateDeref looks at the underlying type. -/
theorem validateDeref_named (need : GoType → Bool) (hneed : ∀ n u, need (.named n u) = need u)
    (n : Named) (u : GoType) : validateDeref cfg need (.named n u) = validateDeref cfg need u := by
  cases u <;> simp [validateDeref, validateStruct, GoType.kind, hneed]
  intro h
  rw [if_neg h]

/-- A missing provider makes providerFor and validateTagged report the same error. -/
theorem providerFor_error_mem {name : String} {tag : ParsedTag} {e : GoError}
    (h : providerFor cfg name tag = .error e) :
    e ∈ (if tag.scheme ≠ [] then
          if (cfg.providers tag.scheme).isSome then [] else [.unknownProvider name tag.scheme tag.uri]
        else if cfg.defaultProvider.isSome then [] else [.noDefaultProvider name tag.key]) := by
  unfold providerFor at h
  split_ifs at h ⊢ <;> split at h <;> simp_all

/-- The walk's errors on a tagged field are Validate's for it, or
ErrVersioningNotSupported. -/
theorem taggedField_errs (f : FieldMeta) (ft : GoType) (raw : Bytes) :
    ∀ e ∈ (taggedField cfg f ft raw).errs, e ∈ validateTagged cfg f ft raw ∨ e.isVersioningNotSupported := by
  intro e he
  unfold taggedField at he
  unfold validateTagged
  split at he
  · rename_i err herr
    simp only [herr, List.mem_singleton] at he ⊢
    exact .inl he
  · dsimp only
    split at he
    · rename_i err hp
      simp only [List.mem_singleton] at he
      exact .inl (List.mem_append_left _ (he ▸ providerFor_error_mem cfg hp))
    · split at he
      · simp only [List.mem_singleton] at he
        exact .inr (he ▸ rfl)
      · simp at he

/-- The first loop's errors on a field are Validate's for it, or ErrVersioningNotSupported,
unless the field is an exported embedded field with a tag whose type is not a struct. -/
theorem firstField_errs {f : FieldMeta} {ft : GoType}
    (hf : (f.anonymous && f.exported && f.tag.isSome && ft.kind != .struct) = false)
    (ih : ∀ v, ∀ e ∈ (collectFields cfg ft v).2.errs, e ∈ validateStruct cfg ft ∨ e.isVersioningNotSupported)
    (v : Value) :
    ∀ e ∈ (firstField cfg f ft v).2.errs, e ∈ validateField cfg f ft ∨ e.isVersioningNotSupported := by
  unfold firstField
  split_ifs with ha
  · rw [validateField, if_pos ha.1, validateDeref_true_of_struct cfg ha.2]
    exact ih v
  · unfold tagFound
    split
    · rename_i raw hexp htag
      have hna : f.anonymous = false := by
        cases hA : f.anonymous
        · rfl
        · simp_all
      simp only [validateField, hna, hexp, htag, Bool.false_eq_true, if_false]
      exact taggedField_errs cfg f ft raw
    · simp

/-- The second loop's errors on a field are Validate's for it, or
ErrVersioningNotSupported. -/
theorem secondField_errs {f : FieldMeta} {ft : GoType}
    (ih : ∀ v, ∀ e ∈ (nestedField cfg ft v).2.errs,
      e ∈ validateDeref cfg hasSecretTags ft ∨ e.isVersioningNotSupported) (v : Value) :
    ∀ e ∈ (secondField cfg f ft v).2.errs, e ∈ validateField cfg f ft ∨ e.isVersioningNotSupported := by
  unfold secondField
  split_ifs with hs
  · simp
  · simp only [not_or, Bool.not_eq_true, Bool.not_eq_false, Option.not_isSome_iff_eq_none] at hs
    obtain ⟨hna, hexp, htag⟩ := hs
    have htag' : f.tag = none := by cases h : f.tag <;> simp_all
    simp only [validateField, hna, hexp, htag', Bool.false_eq_true, if_false, Bool.true_eq_false]
    exact ih v

/-- The walk's errors on a record of type `t` are Validate's for `t`, or
ErrVersioningNotSupported, when no embedded field of `t` carries a tag on a type other
than a struct; the same for the second loop's walk of an untagged field of type `t`. -/
theorem walk_errs_validated (t : GoType) :
    embedsTaggedLeaf t = false →
      (∀ v, ∀ e ∈ (collectFields cfg t v).2.errs,
        e ∈ validateStruct cfg t ∨ e.isVersioningNotSupported) ∧
      ∀ v, ∀ e ∈ (nestedField cfg t v).2.errs,
        e ∈ validateDeref cfg hasSecretTags t ∨ e.isVersioningNotSupported := by
  induction t using GoType.fieldInduction with
  | hstruct fs ih =>
    intro h
    have hfs := embedsTaggedLeafFields_eq_false h
    have hc : ∀ v, ∀ e ∈ (collectFields cfg (.struct fs) v).2.errs,
        e ∈ validateStruct cfg (.struct fs) ∨ e.isVersioningNotSupported := by
      intro v e he
      simp only [collectFields_struct, Found.errs_append, numbered_errs, List.mem_append,
        List.mem_flatMap] at he
      rcases he with ⟨r, hr, he⟩ | ⟨r, hr, he⟩
      · obtain ⟨p, hp, x, rfl⟩ := mem_zipFields hr
        exact (firstField_errs cfg (hfs p hp).1 ((ih p hp (hfs p hp).2).1) x e he).imp_left
          (mem_validateFields cfg hp)
      · obtain ⟨p, hp, x, rfl⟩ := mem_zipFields hr
        exact (secondField_errs cfg ((ih p hp (hfs p hp).2).2) _ e he).imp_left
          (mem_validateFields cfg hp)
    refine ⟨hc, fun v e he => ?_⟩
    rw [nestedField_struct] at he
    split at he
    · simpa [validateDeref, hasSecretTags, *] using hc v e he
    · simp at he
  | hptr e ih =>
    intro h
    refine ⟨fun v e he => by simp [collectFields] at he, fun v e' he => ?_⟩
    rw [nestedField_ptr] at he
    split_ifs at he with h1 h2
    · simp only [Found.errs_under] at he
      simpa [validateDeref, h1, h2] using (ih h).1 _ e' he
    all_goals simp at he
  | hnamed n u ih =>
    intro h
    rw [validateDeref_named cfg hasSecretTags (fun _ _ => rfl)]
    exact ih h
  | hleaf t h0 h1 h2 =>
    intro _
    simp [collectFields_leaf cfg h1 h2, nestedField_leaf cfg h0 h1 h2]

/-- Validate reports every configuration error that Resolve's walk reports on a struct
record, except ErrVersioningNotSupported, when no embedded field carries a `secret` tag on
a type other than a struct. So when Validate passes, the walk reports at most
ErrVersioningNotSupported. -/
theorem validate_covers_walk_errs {t : GoType} (ht : t.kind = .struct)
    (hemb : embedsTaggedLeaf t = false) (v : Value) :
    ∀ e ∈ (collectFields cfg t v).2.errs, e ∈ validate cfg t ∨ e.isVersioningNotSupported := by
  rw [validate, if_pos ht]
  exact (walk_errs_validated cfg t hemb).1 v

end Validate

/-- The walk reports ErrVersioningNotSupported on versionedOnPlainRecord, where Validate
passes. -/
theorem validate_covers_walk_errs_versioned :
    versionedOnPlainRecord.kind = .struct ∧ embedsTaggedLeaf versionedOnPlainRecord = false ∧
      ∀ e ∈ (collectFields constConfig versionedOnPlainRecord versionedOnPlainRecord.zero).2.errs,
        e ∈ validate constConfig versionedOnPlainRecord ∨ e.isVersioningNotSupported :=
  ⟨rfl, rfl, validate_covers_walk_errs constConfig (t := versionedOnPlainRecord) rfl rfl _⟩

/-- `struct { Token `secret:"vault://tok"` }`, Token a defined string type embedded in the
record. -/
def embeddedTokenRecord : GoType :=
  .struct [(⟨"Token", true, true, some (ascii "vault://tok")⟩, .named ⟨"Token", false⟩ .string)]

/-- validateStruct skips the tag of an embedded field whose type is not a struct, which
collectFields reads: Validate passes, and Resolve fails on the unknown scheme. -/
theorem validate_skips_embedded_tag (lib : Lib) :
    embedsTaggedLeaf embeddedTokenRecord = true ∧ validate constConfig embeddedTokenRecord = [] ∧
      (resolve lib constConfig embeddedTokenRecord embeddedTokenRecord.zero).2 =
        [.unknownProvider "Token" (ascii "vault") (ascii "vault://tok")] :=
  ⟨rfl, by decide, rfl⟩

end GoSecrets
