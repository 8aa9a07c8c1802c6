import GoSecrets.JsonMarshal
import GoSecrets.Fragment

/-! extractFragment's paths compose: a further path extracted from a fragment that is an
object or an array finds what the joined path finds, and fails as it fails but for the path. -/
namespace GoSecrets.Fragment

open Json

/-- Splitting a path at a separator splits it at every separator on each side. -/
theorem splitOn_append_cons (sep : UInt8) (q : Bytes) : ∀ p : Bytes,
    (p ++ sep :: q).splitOn sep = p.splitOn sep ++ q.splitOn sep
  | [] => by simp [List.splitOn]
  | x :: p => by
    have ih := splitOn_append_cons sep q p
    unfold List.splitOn at ih ⊢
    rw [List.cons_append, List.splitOnP_cons, List.splitOnP_cons, ih]
    split
    · rfl
    · obtain ⟨g, gs, hg⟩ := List.exists_cons_of_ne_nil (List.splitOnP_ne_nil (· == sep) p)
      rw [hg]; rfl

theorem lookup_map_snd {α β : Type} (f : α → β) (k : Bytes) : ∀ l : List (Bytes × α),
    (l.map fun p => (p.1, f p.2)).lookup k = (l.lookup k).map f
  | [] => rfl
  | (a, b) :: l => by
    simp only [List.map_cons, List.lookup_cons]
    split <;> simp [lookup_map_snd f k l]

/-- With distinct keys, a key finds exactly the value stored beside it. -/
theorem lookup_eq_some_iff_mem {α : Type} {k : Bytes} {b : α} : ∀ {l : List (Bytes × α)},
    (l.map Prod.fst).Nodup → (l.lookup k = some b ↔ (k, b) ∈ l)
  | [], _ => by simp
  | (a, c) :: l, hd => by
    rw [List.map_cons, List.nodup_cons] at hd
    by_cases hk : k = a
    · subst hk
      have hnot : (k, b) ∉ l := fun h => hd.1 (List.mem_map.mpr ⟨_, h, rfl⟩)
      simp [hnot, eq_comm]
    · simp [List.lookup_cons, beq_false_of_ne hk, hk, lookup_eq_some_iff_mem hd.2]

theorem lookup_sortByKey {α : Type} {l : List (Bytes × α)} (hd : (l.map Prod.fst).Nodup) (k : Bytes) :
    (sortByKey l).lookup k = l.lookup k := by
  have hd' : ((sortByKey l).map Prod.fst).Nodup := ((sortByKey_perm l).map Prod.fst).nodup_iff.mpr hd
  refine Option.ext fun b => ?_
  rw [Option.mem_def, Option.mem_def, lookup_eq_some_iff_mem hd', lookup_eq_some_iff_mem hd,
    (sortByKey_perm l).mem_iff]

section Descend
variable (fl : FloatLib)

/-- One step of the path walk stays among well-formed values. -/
theorem descend_wf {path part : Bytes} {w v : JsonValue} (hw : w.WF fl) (h : descend path w part = .ok v) :
    v.WF fl := by
  cases hw with
  | @array xs hxs =>
    simp only [descend] at h
    split at h
    · cases h
    · split at h
      · rename_i hv
        cases h
        split at hv
        · cases hv
        · exact hxs _ (List.get?_mem hv)
      · cases h
  | @object kvs _ _ hkvs =>
    simp only [descend] at h
    split at h
    · rename_i hv
      cases h
      obtain ⟨l₁, l₂, rfl, -⟩ := List.lookup_eq_some_iff.mp hv
      exact hkvs _ (List.mem_append_right _ (.head _))
    · cases h
  | _ => cases h

theorem foldlM_descend_wf (path : Bytes) : ∀ (parts : List Bytes) {w v : JsonValue}, w.WF fl →
    parts.foldlM (descend path) w = .ok v → v.WF fl
  | [], _, _, hw, h => by cases h; exact hw
  | part :: parts, w, v, hw, h => by
    rw [List.foldlM_cons] at h
    cases hd : descend path w part with
    | error e => rw [hd] at h; cases h
    | ok u => rw [hd] at h; exact foldlM_descend_wf path parts (descend_wf fl hw hd) h

/-- Walking into a value whose members were put in key order finds the same values, in key
order too. -/
theorem descend_sortKeys {w : JsonValue} (hw : w.WF fl) (path part : Bytes) :
    descend path w.sortKeys part = (descend path w part).map JsonValue.sortKeys := by
  cases hw with
  | @array xs _ =>
    simp only [JsonValue.sortKeys, sortKeysElements_eq, descend]
    cases atoi part with
    | none => rfl
    | some idx =>
      by_cases hi : idx < 0
      · simp [hi, Except.map]
      · simp only [hi, if_false, List.get?_eq_getElem?, List.getElem?_map, List.length_map]
        cases xs[idx.toNat]? <;> rfl
  | @object kvs hd _ _ =>
    simp only [JsonValue.sortKeys, sortKeysMembers_eq, sortByKey_map, descend]
    rw [lookup_map_snd, lookup_sortByKey hd]
    cases kvs.lookup part <;> rfl
  | _ => rfl

theorem foldlM_descend_sortKeys (path : Bytes) : ∀ (parts : List Bytes) {w : JsonValue}, w.WF fl →
    parts.foldlM (descend path) w.sortKeys = (parts.foldlM (descend path) w).map JsonValue.sortKeys
  | [], _, _ => rfl
  | part :: parts, w, hw => by
    rw [List.foldlM_cons, List.foldlM_cons, descend_sortKeys fl hw]
    cases hd : descend path w part with
    | error e => rfl
    | ok u => exact foldlM_descend_sortKeys path parts (descend_wf fl hw hd)

/-- An error of descend quoting `path` in place of the path it quotes. -/
def GoError.repath (path : Bytes) : GoError → GoError
  | .fragmentNotFound _ => .fragmentNotFound path
  | .badIndex _ part => .badIndex path part
  | .indexOutOfRange _ idx len => .indexOutOfRange path idx len
  | .cannotIndex _ typeName => .cannotIndex path typeName
  | e => e

/-- The path descend quotes in its errors changes nothing else. -/
theorem descend_repath (path path' part : Bytes) (w : JsonValue) :
    descend path' w part = (descend path w part).mapError (GoError.repath path') := by
  cases w with
  | array xs =>
    simp only [descend]
    cases atoi part with
    | none => rfl
    | some idx =>
      dsimp only
      cases (if idx < 0 then none else xs.get? idx.toNat) <;> rfl
  | object kvs =>
    simp only [descend]
    cases kvs.lookup part <;> rfl
  | _ => rfl

theorem foldlM_descend_repath (path path' : Bytes) : ∀ (parts : List Bytes) (w : JsonValue),
    parts.foldlM (descend path') w = (parts.foldlM (descend path) w).mapError (GoError.repath path')
  | [], _ => rfl
  | part :: parts, w => by
    rw [List.foldlM_cons, List.foldlM_cons, descend_repath path path' part w]
    cases descend path w part with
    | error e => rfl
    | ok u => exact foldlM_descend_repath path path' parts u

theorem leafBytes_sortKeys {w : JsonValue} (hw : w.WF fl) : leafBytes fl w.sortKeys = leafBytes fl w := by
  cases hw with
  | array h => exact marshal_sortKeys fl (.array h)
  | object hd hk h => exact marshal_sortKeys fl (.object hd hk h)
  | _ => rfl

end Descend

section Nested
variable (fl : FloatLib)

/-- A fragment that is an object or an array comes back marshaled again, and a further path
extracted from that text finds what the joined path finds in the original secret; the
errors agree too, but for the path they quote. -/
theorem extractFragment_nested {data p : Bytes} {root mid : JsonValue}
    (hr : unmarshal fl data = some root)
    (hmid : (p.splitOn (byte '.')).foldlM (descend p) root = .ok mid) (hw : mid.WF fl)
    (hc : (∃ xs, mid = .array xs) ∨ ∃ kvs, mid = .object kvs) (q : Bytes) :
    extractFragment fl data p = .ok (marshal fl mid) ∧
      (extractFragment fl (marshal fl mid) q).toOption =
        (extractFragment fl data (p ++ byte '.' :: q)).toOption ∧
      extractFragment fl data (p ++ byte '.' :: q) =
        (extractFragment fl (marshal fl mid) q).mapError (GoError.repath (p ++ byte '.' :: q)) := by
  have hleaf : leafBytes fl mid = marshal fl mid := by
    rcases hc with ⟨xs, rfl⟩ | ⟨kvs, rfl⟩ <;> rfl
  have hjoin : (p.splitOn (byte '.')).foldlM (descend (p ++ byte '.' :: q)) root = .ok mid := by
    rw [foldlM_descend_repath p, hmid]; rfl
  have hsub : extractFragment fl data (p ++ byte '.' :: q) =
      (extractFragment fl (marshal fl mid) q).mapError (GoError.repath (p ++ byte '.' :: q)) := by
    simp only [extractFragment, (unmarshal_marshal fl hw).1, hr, splitOn_append_cons, List.foldlM_append,
      hjoin, bind, Except.bind, foldlM_descend_sortKeys fl q _ hw]
    rw [foldlM_descend_repath q]
    cases h : (q.splitOn (byte '.')).foldlM (descend q) mid with
    | error e => rfl
    | ok u => simp only [Except.map, Except.mapError, pure, Except.pure,
        leafBytes_sortKeys fl (foldlM_descend_wf fl q _ hw h)]
  refine ⟨by simp only [extractFragment, hr, bind, Except.bind, hmid, pure, Except.pure, hleaf], ?_, hsub⟩
  rw [hsub]
  cases extractFragment fl (marshal fl mid) q <;> rfl

end Nested
theorem extractFragment_nested_db :
    unmarshal Lib.stringsOnly.toFloatLib nestedSecretText = some nestedSecret ∧
      ((ascii "db").splitOn (byte '.')).foldlM (descend (ascii "db")) nestedSecret = .ok dbSecret ∧
      dbSecret.WF Lib.stringsOnly.toFloatLib ∧
      ((∃ xs, dbSecret = .array xs) ∨ ∃ kvs, dbSecret = .object kvs) ∧
      (extractFragment Lib.stringsOnly.toFloatLib nestedSecretText (ascii "db") =
          .ok (marshal Lib.stringsOnly.toFloatLib dbSecret) ∧
        (extractFragment Lib.stringsOnly.toFloatLib (marshal Lib.stringsOnly.toFloatLib dbSecret)
            (ascii "port")).toOption =
          (extractFragment Lib.stringsOnly.toFloatLib nestedSecretText
            (ascii "db" ++ byte '.' :: ascii "port")).toOption ∧
        extractFragment Lib.stringsOnly.toFloatLib nestedSecretText (ascii "db" ++ byte '.' :: ascii "port") =
          (extractFragment Lib.stringsOnly.toFloatLib (marshal Lib.stringsOnly.toFloatLib dbSecret)
            (ascii "port")).mapError (GoError.repath (ascii "db" ++ byte '.' :: ascii "port"))) := by
  have hw : dbSecret.WF Lib.stringsOnly.toFloatLib := by
    have h := nestedSecret_wf Lib.stringsOnly.toFloatLib
    cases h with
    | object _ _ h => exact h (ascii "db", dbSecret) (.head _)
  have hr : unmarshal Lib.stringsOnly.toFloatLib nestedSecretText = some nestedSecret := rfl
  have hm : ((ascii "db").splitOn (byte '.')).foldlM (descend (ascii "db")) nestedSecret = .ok dbSecret := rfl
  have hc : (∃ xs, dbSecret = .array xs) ∨ ∃ kvs, dbSecret = .object kvs := .inr ⟨_, rfl⟩
  exact ⟨hr, hm, hw, hc, extractFragment_nested _ hr hm hw hc _⟩

example : extractFragment Lib.stringsOnly.toFloatLib nestedSecretText (ascii "db.host") = .ok (ascii "h") := by
  decide

example : extractFragment Lib.stringsOnly.toFloatLib (marshal Lib.stringsOnly.toFloatLib dbSecret) (ascii "port") =
      .error (.fragmentNotFound (ascii "port")) ∧
    extractFragment Lib.stringsOnly.toFloatLib nestedSecretText (ascii "db.port") =
      .error (.fragmentNotFound (ascii "db.port")) := by
  decide

end GoSecrets.Fragment
