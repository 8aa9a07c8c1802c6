import GoSecrets.Walk
import GoSecrets.Convert
import GoSecrets.Fragment

/-! Resolver.Resolve (resolver.go): collect the tagged fields, plan one fetch per distinct
fetchKey.String(), fetch concurrently, then assign field by field. Providers answer as
functions of the request, so the fetch goroutines differ only in the order in which they
store their results; that order is a parameter. -/
namespace GoSecrets

open Json Fragment

/-- fetchKey: a URI and a version, empty for the current one. -/
structure FetchKey where
  uri : Bytes
  version : Bytes
deriving DecidableEq, Repr

/-- fetchKey.String(): the key of the seen set and of the results map. -/
def FetchKey.string (fk : FetchKey) : Bytes :=
  if fk.version ≠ [] then fk.uri ++ ascii "@" ++ fk.version else fk.uri

/-- fetchSpec: a planned fetch, made with the provider and key of the field `fi` that
first needed it. -/
structure FetchSpec where
  key : FetchKey
  fi : FieldInfo
  version : Bytes

/-- The fetches a field needs, in the order the planning loop looks at them. -/
def FieldInfo.needs (fi : FieldInfo) : List FetchSpec :=
  if fi.isVersioned then
    [⟨⟨fi.tag.uri, []⟩, fi, []⟩, ⟨⟨fi.tag.uri, ascii "previous"⟩, fi, ascii "previous"⟩]
  else [⟨⟨fi.tag.uri, fi.tag.version⟩, fi, fi.tag.version⟩]

/-- The planning loop of phase 2: a spec for each fetch whose String() is not in `seen`. -/
def planFrom (seen : List Bytes) : List FetchSpec → List FetchSpec
  | [] => []
  | s :: ss =>
    if s.key.string ∈ seen then planFrom seen ss
    else s :: planFrom (s.key.string :: seen) ss

def plan (fields : List FieldInfo) : List FetchSpec := planFrom [] (fields.flatMap FieldInfo.needs)

/-- The goroutine's call: GetVersion when the spec asks for a version, else Get. -/
def FetchSpec.fetch (s : FetchSpec) : Outcome :=
  if s.version ≠ [] then
    match s.fi.provider.getVersion with
    | some gv => gv s.fi.tag.key s.version
    | none => .error (.versioningNotSupported s.fi.fieldName s.fi.providerName)
  else s.fi.provider.get s.fi.tag.key

/-- A goroutine storing its result under the String() of its key. -/
def storeResult (m : Bytes → Option Outcome) (s : FetchSpec) : Bytes → Option Outcome :=
  Function.update m s.key.string (some s.fetch)

/-- The results map once the goroutines have stored their results in the order `done`. -/
def storeResults (done : List FetchSpec) : Bytes → Option Outcome :=
  done.foldl storeResult fun _ => none

section Assign
variable (lib : Lib) (fetched : FieldInfo → Bytes → Outcome)

/-- The bytes a field is set from: the data, or the fragment of it the tag names. -/
def fieldBytes (fi : FieldInfo) (data : Bytes) : Except GoError Bytes :=
  if fi.tag.fragment ≠ [] then extractFragment lib.toFloatLib data fi.tag.fragment else .ok data

/-- setField on the field stored at `p`, of type `t`: the record after it and the error. -/
def setAt (name : String) (t : GoType) (p : Path) (raw : Bytes) (r : Value) :
    Value × List GoError :=
  let x := setField lib name t raw ((r.get p).getD t.zero)
  (r.set p x.1, x.2.toList)

/-- The type of slot `j` of a Versioned[T] field. -/
def slotType (t : GoType) (j : Nat) : GoType := ((t.fields.get? j).map Prod.snd).getD t

/-- Phase 3 on one field, reading its results through `fetched`: the record after it
and the errors it reports. -/
def assignField (fi : FieldInfo) (r : Value) : Value × List GoError :=
  let wrap (e : GoError) : GoError := .field fi.fieldName e
  if fi.isVersioned then
    match fetched fi [] with
    | .error e => (r, if fi.tag.optional ∧ e.isNotFound then [] else [wrap e])
    | .ok data =>
      match fieldBytes lib fi data with
      | .error e => (r, [wrap e])
      | .ok cur =>
        let c := setAt lib (fi.fieldName ++ ".Current") (slotType fi.type 0)
          (fi.path ++ [.field 0]) cur r
        if c.2 ≠ [] then c
        else
          match fetched fi (ascii "previous") with
          | .error e => (c.1, if e.isNotFound then [] else [wrap e])
          | .ok data =>
            match fieldBytes lib fi data with
            | .error e => (c.1, [wrap e])
            | .ok prev =>
              setAt lib (fi.fieldName ++ ".Previous") (slotType fi.type 1)
                (fi.path ++ [.field 1]) prev c.1
  else
    match fetched fi fi.tag.version with
    | .error e => (r, if fi.tag.optional ∧ e.isNotFound then [] else [wrap e])
    | .ok data =>
      match fieldBytes lib fi data with
      | .error e => (r, [wrap e])
      | .ok value => setAt lib fi.fieldName fi.type fi.path value r

/-- Phase 3: the fields in walker order. -/
def assignAll : List FieldInfo → Value → Value × List GoError
  | [], r => (r, [])
  | fi :: fis, r =>
    let a := assignField lib fetched fi r
    let b := assignAll fis a.1
    (b.1, a.2 ++ b.2)

end Assign

section Resolve
variable (lib : Lib) (cfg : ResolverConfig)

/-- The three phases after the target check, with phase 3 reading `fetched`; the early
return when collecting found errors and no field. -/
def resolveFrom (fetched : List FetchSpec → FieldInfo → Bytes → Outcome) (t : GoType)
    (v : Value) : Value × List GoError :=
  if t.kind ≠ .struct then (v, [.other "secrets: dst must point to a struct"])
  else
    let c := collectFields cfg t v
    if c.2.errs ≠ [] ∧ c.2.fields.isEmpty then (c.1, c.2.errs)
    else
      let a := assignAll lib (fetched (plan c.2.fields)) c.2.fields c.1
      (a.1, c.2.errs ++ a.2)

/-- The result a field reads: the one stored under the String() of its fetch key. -/
def sharedResult (results : Bytes → Option Outcome) (fi : FieldInfo) (version : Bytes) :
    Outcome :=
  (results (FetchKey.string ⟨fi.tag.uri, version⟩)).getD (.error (.other "nil result"))

/-- Resolve(ctx, &v) on a record of type `t`, the goroutines storing their results in the
order `schedule` gives the plan: the record after it, and the joined errors (nil when
empty). -/
def resolveWith (schedule : List FetchSpec → List FetchSpec) (t : GoType) (v : Value) :
    Value × List GoError :=
  resolveFrom lib cfg (fun specs => sharedResult (storeResults (schedule specs))) t v

/-- Resolve with the goroutines finishing in plan order. -/
def resolve (t : GoType) (v : Value) : Value × List GoError := resolveWith lib cfg id t v

/-- The naive resolver the specification compares Resolve with: each collected field
fetched in walker order with its own provider and key, then extracted and converted. -/
def naiveResolve (t : GoType) (v : Value) : Value × List GoError :=
  resolveFrom lib cfg (fun _ fi version => (FetchSpec.fetch ⟨⟨fi.tag.uri, version⟩, fi, version⟩))
    t v

end Resolve

/-! ### The plan and the results map -/

/-- The plan keeps specs of its input, in order. -/
theorem planFrom_sublist : ∀ (seen : List Bytes) (L : List FetchSpec), List.Sublist (planFrom seen L) L
  | _, [] => .slnil
  | seen, s :: ss => by
    unfold planFrom
    split
    · exact (planFrom_sublist seen ss).cons s
    · exact (planFrom_sublist _ ss).cons₂ s

/-- The plan's strings are distinct, and none of them is in `seen`. -/
theorem planFrom_nodup : ∀ (seen : List Bytes) (L : List FetchSpec),
    ((planFrom seen L).map (·.key.string)).Nodup ∧ ∀ s ∈ planFrom seen L, s.key.string ∉ seen
  | _, [] => ⟨.nil, fun _ h => nomatch h⟩
  | seen, s :: ss => by
    unfold planFrom
    split
    · exact planFrom_nodup seen ss
    · obtain ⟨h1, h2⟩ := planFrom_nodup (s.key.string :: seen) ss
      refine ⟨List.nodup_cons.mpr ⟨fun h => ?_, h1⟩, fun s' hs' => ?_⟩
      · obtain ⟨s', hs', he⟩ := List.mem_map.mp h
        exact h2 s' hs' (he ▸ .head _)
      · rcases List.mem_cons.mp hs' with rfl | hs'
        · assumption
        · exact fun h => h2 s' hs' (.tail _ h)

/-- Every spec of the input has its String() in `seen` or in the plan. -/
theorem planFrom_covers : ∀ (seen : List Bytes) (L : List FetchSpec), ∀ n ∈ L,
    n.key.string ∈ seen ∨ ∃ s ∈ planFrom seen L, s.key.string = n.key.string
  | _, [], _, h => nomatch h
  | seen, s :: ss, n, hn => by
    unfold planFrom
    split
    · rcases List.mem_cons.mp hn with rfl | hn
      · exact .inl ‹_›
      · exact planFrom_covers seen ss n hn
    · rcases List.mem_cons.mp hn with rfl | hn
      · exact .inr ⟨n, .head _, rfl⟩
      · rcases planFrom_covers _ ss n hn with h | ⟨s', hs', he⟩
        · rcases List.mem_cons.mp h with h | h
          · exact .inr ⟨s, .head _, h.symm⟩
          · exact .inl h
        · exact .inr ⟨s', .tail _ hs', he⟩

theorem plan_nodup (F : List FieldInfo) : ((plan F).map (·.key.string)).Nodup :=
  (planFrom_nodup [] _).1

theorem plan_covers {F : List FieldInfo} {n : FetchSpec} (hn : n ∈ F.flatMap FieldInfo.needs) :
    ∃ s ∈ plan F, s.key.string = n.key.string :=
  (planFrom_covers [] _ n hn).resolve_left (List.not_mem_nil _)

/-- A fetch a field needs is made with that field, its URI and the version it asks for. -/
theorem FieldInfo.needs_spec {fi : FieldInfo} {n : FetchSpec} (h : n ∈ fi.needs) :
    n = ⟨⟨fi.tag.uri, n.version⟩, fi, n.version⟩ := by
  unfold FieldInfo.needs at h
  split at h
  · rcases List.mem_pair.mp h with rfl | rfl <;> rfl
  · rw [List.mem_singleton.mp h]

theorem foldl_store_not_mem (k : Bytes) : ∀ (done : List FetchSpec) (m : Bytes → Option Outcome),
    k ∉ done.map (·.key.string) → done.foldl storeResult m k = m k
  | [], _, _ => rfl
  | s :: done, m, h => by
    simp only [List.map_cons, List.mem_cons, not_or] at h
    rw [List.foldl_cons, foldl_store_not_mem k done _ h.2, storeResult, Function.update_noteq h.1]

theorem foldl_store_mem : ∀ (done : List FetchSpec) (m : Bytes → Option Outcome),
    (done.map (·.key.string)).Nodup → ∀ s ∈ done, done.foldl storeResult m s.key.string = some s.fetch
  | [], _, _, _, h => nomatch h
  | a :: done, m, hd, s, hs => by
    rw [List.map_cons, List.nodup_cons] at hd
    rw [List.foldl_cons]
    rcases List.mem_cons.mp hs with rfl | hs
    · rw [foldl_store_not_mem _ done _ hd.1, storeResult, Function.update_same]
    · exact foldl_store_mem done _ hd.2 s hs

/-- With distinct strings, the results map is the same whatever order the goroutines
store their results in. -/
theorem storeResults_perm {done done' : List FetchSpec} (h : done.Perm done')
    (hd : (done.map (·.key.string)).Nodup) : storeResults done = storeResults done' := by
  funext k
  by_cases hk : k ∈ done.map (·.key.string)
  · obtain ⟨s, hs, rfl⟩ := List.mem_map.mp hk
    rw [storeResults, storeResults, foldl_store_mem done _ hd s hs,
      foldl_store_mem done' _ ((h.map _).nodup_iff.mp hd) s (h.mem_iff.mp hs)]
  · rw [storeResults, storeResults, foldl_store_not_mem k done _ hk,
      foldl_store_not_mem k done' _ fun h' => hk ((h.map _).mem_iff.mpr h')]

/-! ### Resolve and the naive resolver -/

section Equivalence
variable (lib : Lib) (cfg : ResolverConfig)

/-- assignField reads only the results of the fetches its field needs. -/
theorem assignField_congr {fetched fetched' : FieldInfo → Bytes → Outcome} (fi : FieldInfo)
    (h : ∀ n ∈ fi.needs, fetched fi n.version = fetched' fi n.version) (r : Value) :
    assignField lib fetched fi r = assignField lib fetched' fi r := by
  unfold assignField
  by_cases hv : fi.isVersioned
  · have h0 := h ⟨⟨fi.tag.uri, []⟩, fi, []⟩ (by simp [FieldInfo.needs, hv])
    have h1 := h ⟨⟨fi.tag.uri, ascii "previous"⟩, fi, ascii "previous"⟩
      (by simp [FieldInfo.needs, hv])
    simp only [hv, if_true, h0, h1]
  · have h0 := h ⟨⟨fi.tag.uri, fi.tag.version⟩, fi, fi.tag.version⟩ (by simp [FieldInfo.needs, hv])
    simp only [hv, Bool.false_eq_true, if_false, h0]

theorem assignAll_congr {fetched fetched' : FieldInfo → Bytes → Outcome} :
    ∀ (fis : List FieldInfo) (r : Value),
      (∀ fi ∈ fis, ∀ n ∈ fi.needs, fetched fi n.version = fetched' fi n.version) →
        assignAll lib fetched fis r = assignAll lib fetched' fis r
  | [], _, _ => rfl
  | fi :: fis, r, h => by
    simp only [assignAll, assignField_congr lib fi (h fi (.head _)),
      assignAll_congr fis _ fun fi' h' => h fi' (.tail _ h')]

/-- Resolve reads the results only through the fetches the collected fields need. -/
theorem resolveFrom_congr {fetched fetched' : List FetchSpec → FieldInfo → Bytes → Outcome}
    {t : GoType} {v : Value}
    (h : ∀ fi ∈ (collectFields cfg t v).2.fields, ∀ n ∈ fi.needs,
      fetched (plan (collectFields cfg t v).2.fields) fi n.version =
        fetched' (plan (collectFields cfg t v).2.fields) fi n.version) :
    resolveFrom lib cfg fetched t v = resolveFrom lib cfg fetched' t v := by
  unfold resolveFrom
  simp only [assignAll_congr lib _ _ h]

/-- The interleaving of the fetch goroutines does not matter: the plan has one spec per
String(), so every order of their stores gives the same results map. -/
theorem resolveWith_schedule (schedule : List FetchSpec → List FetchSpec)
    (hs : ∀ specs, (schedule specs).Perm specs) (t : GoType) (v : Value) :
    resolveWith lib cfg schedule t v = resolve lib cfg t v := by
  unfold resolve resolveWith
  exact resolveFrom_congr lib cfg fun _ _ _ _ => by
    rw [storeResults_perm (hs _) (((hs _).map _).nodup_iff.mpr (plan_nodup _))]; rfl

/-- Under any interleaving, the result a collected field reads for a fetch it needs is the
answer to the planned fetch with the same String(), which some collected field needs. -/
theorem sharedResult_schedule {schedule : List FetchSpec → List FetchSpec}
    (hs : ∀ specs, (schedule specs).Perm specs) {F : List FieldInfo} {fi : FieldInfo} (hfi : fi ∈ F)
    {n : FetchSpec} (hn : n ∈ fi.needs) :
    ∃ s ∈ F.flatMap FieldInfo.needs, s.key.string = n.key.string ∧
      sharedResult (storeResults (schedule (plan F))) fi n.version = s.fetch := by
  obtain ⟨s, hsp, hk⟩ := plan_covers (List.mem_flatMap.mpr ⟨fi, hfi, hn⟩)
  have hkey : FetchKey.string ⟨fi.tag.uri, n.version⟩ = s.key.string :=
    (congrArg (fun n : FetchSpec => n.key.string) (FieldInfo.needs_spec hn)).symm.trans hk.symm
  have hst := foldl_store_mem _ (fun _ => none)
    (((hs (plan F)).map _).nodup_iff.mpr (plan_nodup F)) s ((hs _).mem_iff.mpr hsp)
  refine ⟨s, (planFrom_sublist [] _).subset hsp, hk, ?_⟩
  rw [sharedResult, hkey, storeResults, hst, Option.getD_some]

/-- Resolve, under any interleaving of its goroutines, leaves the record and the errors
the naive resolver does, provided fetches with the same String() get the same answer.
The provider, key and version of a spec decide its answer, but String() forgets some of
them: "k@v" is both the bare key k@v and key k at version v. -/
theorem resolveWith_eq_naiveResolve (schedule : List FetchSpec → List FetchSpec)
    (hs : ∀ specs, (schedule specs).Perm specs) (t : GoType) (v : Value)
    (H : ∀ a ∈ (collectFields cfg t v).2.fields.flatMap FieldInfo.needs,
      ∀ b ∈ (collectFields cfg t v).2.fields.flatMap FieldInfo.needs,
        a.key.string = b.key.string → a.fetch = b.fetch) :
    resolveWith lib cfg schedule t v = naiveResolve lib cfg t v := by
  refine resolveFrom_congr lib cfg fun fi hfi n hn => ?_
  obtain ⟨s, hs', hk, he⟩ := sharedResult_schedule hs hfi hn
  exact he.trans ((H s hs' n (List.mem_flatMap.mpr ⟨fi, hfi, hn⟩) hk).trans
    (congrArg FetchSpec.fetch (FieldInfo.needs_spec hn)))

end Equivalence

/-- When URIs hold no '@', String() tells two keys apart as soon as one names a version. -/
theorem FetchKey.string_inj_versioned {a b : FetchKey} (h : a.string = b.string)
    (ha : byte '@' ∉ a.uri) (hb : byte '@' ∉ b.uri) (hv : b.version ≠ []) : a = b := by
  obtain ⟨au, av⟩ := a
  obtain ⟨bu, bv⟩ := b
  have hat : ascii "@" = [byte '@'] := rfl
  simp only [FetchKey.string, if_pos hv, hat, List.append_assoc, List.singleton_append] at h ha hb ⊢
  split_ifs at h
  · have h1 : cut [byte '@'] (au ++ byte '@' :: av) = some (au, av) :=
      cut_single_eq_some.mpr ⟨rfl, ha⟩
    rw [h, cut_single_eq_some.mpr ⟨rfl, hb⟩] at h1
    simpa using h1.symm
  · exact absurd (h ▸ List.mem_append_right _ (List.mem_cons_self _ _)) ha

/-! ### When Resolve reports no error -/

section Errors
variable (lib : Lib) (cfg : ResolverConfig)

/-- Phase 3 reports no error only if no field's assignment does, from the record it finds. -/
theorem assignAll_errors_eq_nil {fetched : FieldInfo → Bytes → Outcome} :
    ∀ {fis : List FieldInfo} {r : Value}, (assignAll lib fetched fis r).2 = [] →
      ∀ fi ∈ fis, ∃ r', (assignField lib fetched fi r').2 = []
  | [], _, _, _, h => nomatch h
  | fi :: fis, r, h, fi', hfi' => by
    obtain ⟨h1, h2⟩ := List.append_eq_nil.mp h
    rcases List.mem_cons.mp hfi' with rfl | hfi'
    · exact ⟨r, h1⟩
    · exact assignAll_errors_eq_nil h2 fi' hfi'

/-- Resolve reports no error only if no collected field's assignment does. -/
theorem resolveFrom_errors_eq_nil {fetched : List FetchSpec → FieldInfo → Bytes → Outcome}
    {t : GoType} {v : Value} (h : (resolveFrom lib cfg fetched t v).2 = [])
    {fi : FieldInfo} (hfi : fi ∈ (collectFields cfg t v).2.fields) :
    ∃ r, (assignField lib (fetched (plan (collectFields cfg t v).2.fields)) fi r).2 = [] := by
  unfold resolveFrom at h
  dsimp only at h
  split_ifs at h with h1 h2
  · exact absurd h h2.1
  · exact assignAll_errors_eq_nil lib (List.append_eq_nil.mp h).2 fi hfi

/-- A Versioned field whose previous result is an error other than NotFound is assigned
without error only when it is optional and its current result is NotFound. -/
theorem assignField_versioned_errors_eq_nil {fetched : FieldInfo → Bytes → Outcome}
    {fi : FieldInfo} (hv : fi.isVersioned = true) {e : GoError}
    (hprev : fetched fi (ascii "previous") = .error e) (he : e.isNotFound = false) {r : Value}
    (h : (assignField lib fetched fi r).2 = []) :
    fi.tag.optional = true ∧ ∃ e', fetched fi [] = .error e' ∧ e'.isNotFound = true := by
  unfold assignField at h
  rw [if_pos hv] at h
  split at h
  · rename_i e' he'
    split_ifs at h with ho
    exact ⟨ho.1, e', he', ho.2⟩
  · split at h
    · cases h
    · dsimp only at h
      split_ifs at h with hc
      · exact absurd h hc
      · simp [hprev, he] at h

end Errors

/-- Two fields whose fetches differ but have the same String(): the bare key "k@v", and
the key "k" with version=v. -/
def atSignRecord : GoType :=
  .struct [(⟨"A", true, false, some (ascii "k@v")⟩, .string),
    (⟨"B", true, false, some (ascii "k,version=v")⟩, .string)]

/-- A versioned default provider whose answers for the two requests differ. -/
def atSignConfig : ResolverConfig :=
  newResolver [withDefault ⟨fun k => if k = ascii "k@v" then .ok (ascii "x") else .error (.notFound ""),
    some fun k ver => if k = ascii "k" ∧ ver = ascii "v" then .ok (ascii "y") else .error (.notFound "")⟩]

/-- Resolve gives field B the answer to Get("k@v"); the naive resolver gives it
GetVersion("k", "v"). -/
theorem resolve_shares_at_sign_keys (lib : Lib) :
    resolve lib atSignConfig atSignRecord (.struct [.str [], .str []]) =
        (.struct [.str (ascii "x"), .str (ascii "x")], []) ∧
      naiveResolve lib atSignConfig atSignRecord (.struct [.str [], .str []]) =
        (.struct [.str (ascii "x"), .str (ascii "y")], []) :=
  ⟨rfl, rfl⟩

/-- A provider call: Get(key) or GetVersion(key, version) on the provider a field names. -/
inductive Call where
  | get (provider key : Bytes)
  | getVersion (provider key version : Bytes)
deriving DecidableEq, Repr

/-- The call the goroutine of a planned fetch makes, as `FetchSpec.fetch` does; none when it
asks a version of a provider without versions. -/
def FetchSpec.call? (s : FetchSpec) : Option Call :=
  if s.version ≠ [] then s.fi.provider.getVersion.map fun _ => .getVersion s.fi.providerName s.fi.tag.key s.version
  else some (.get s.fi.providerName s.fi.tag.key)

/-- The request a needed fetch stands for: the scheme and key of its field's tag, and the
version. -/
def FetchSpec.request (s : FetchSpec) : Bytes × Bytes × Bytes := (s.fi.tag.scheme, s.fi.tag.key, s.version)

/-- The provider calls of one Resolve on a record of type `t`: one per planned fetch. -/
def resolveCalls (cfg : ResolverConfig) (t : GoType) (v : Value) : List Call :=
  if t.kind ≠ .struct then [] else (plan (collectFields cfg t v).2.fields).filterMap FetchSpec.call?

/-- The requests the fields collectFields returns need, in walker order. -/
def resolveRequests (cfg : ResolverConfig) (t : GoType) (v : Value) : List (Bytes × Bytes × Bytes) :=
  ((collectFields cfg t v).2.fields.flatMap FieldInfo.needs).map FetchSpec.request

/-- The two distinct requests of atSignRecord get one call, Get("k@v"). -/
theorem resolveCalls_merge_at_sign_requests :
    resolveRequests atSignConfig atSignRecord atSignRecord.zero =
        [([], ascii "k@v", []), ([], ascii "k", ascii "v")] ∧
      resolveCalls atSignConfig atSignRecord atSignRecord.zero = [.get (ascii "default") (ascii "k@v")] :=
  ⟨rfl, rfl⟩

/-- A provider with no versions that answers every key with "v". -/
def constConfig : ResolverConfig := newResolver [withDefault ⟨fun _ => .ok (ascii "v"), none⟩]

/-- Two fields with the same tag. -/
def sharedTagRecord : GoType :=
  .struct [(⟨"A", true, false, some (ascii "k")⟩, .string), (⟨"B", true, false, some (ascii "k")⟩, .string)]

theorem resolveWith_eq_naiveResolve_shared_tag :
    (∀ specs : List FetchSpec, specs.reverse.Perm specs) ∧
      resolveWith Lib.stringsOnly constConfig List.reverse sharedTagRecord sharedTagRecord.zero =
        naiveResolve Lib.stringsOnly constConfig sharedTagRecord sharedTagRecord.zero :=
  ⟨List.reverse_perm, resolveWith_eq_naiveResolve Lib.stringsOnly constConfig List.reverse
    List.reverse_perm sharedTagRecord sharedTagRecord.zero (by decide)⟩

theorem resolveWith_schedule_reverse :
    (∀ specs : List FetchSpec, specs.reverse.Perm specs) ∧
      resolveWith Lib.stringsOnly atSignConfig List.reverse atSignRecord atSignRecord.zero =
        resolve Lib.stringsOnly atSignConfig atSignRecord atSignRecord.zero :=
  ⟨List.reverse_perm, resolveWith_schedule Lib.stringsOnly atSignConfig List.reverse
    List.reverse_perm atSignRecord atSignRecord.zero⟩

/-! ### Records on which the walk and the specification part -/

/-- A record that embeds *Base, whose field X is tagged. -/
def embeddedPtrRecord : GoType :=
  .struct [(⟨"Base", true, true, none⟩,
    .ptr (.named ⟨"Base", false⟩ (.struct [(⟨"X", true, false, some (ascii "x")⟩, .string)])))]

/-- collectFields descends into an embedded field only when its kind is struct, and its
second loop skips embedded fields: Resolve returns nil and leaves Base.X unset, while
validateStruct walks *Base. -/
theorem resolve_skips_embedded_pointer (lib : Lib) :
    resolve lib constConfig embeddedPtrRecord (.struct [.ptr none]) = (.struct [.ptr none], []) ∧
      (collectFields constConfig embeddedPtrRecord (.struct [.ptr none])).2 = {} :=
  ⟨rfl, rfl⟩

/-- A Versioned[string] field bound to a provider without versions. -/
def versionedOnPlainRecord : GoType :=
  .struct [(⟨"V", true, false, some (ascii "k")⟩, versionedType .string)]

/-- A `**string` field. -/
def doublePtrRecord : GoType := .struct [(⟨"P", true, false, some (ascii "k")⟩, .ptr (.ptr .string))]

/-- Validate and Resolve disagree both ways. Validate passes a Versioned field on a
provider without versions, on which Resolve fails with ErrVersioningNotSupported; and
isSupportedType rejects `**string`, which setField converts. -/
theorem validate_disagrees_with_resolve (lib : Lib) :
    validate constConfig versionedOnPlainRecord = [] ∧
      resolve lib constConfig versionedOnPlainRecord versionedOnPlainRecord.zero =
        (versionedOnPlainRecord.zero, [.versioningNotSupported "V" (ascii "default")]) ∧
      validate constConfig doublePtrRecord = [.unsupportedType "P" "**string"] ∧
      resolve lib constConfig doublePtrRecord doublePtrRecord.zero =
        (.struct [.ptr (some (.ptr (some (.str (ascii "v")))))], []) :=
  ⟨by decide, rfl, by decide, rfl⟩

/-- A record with an untagged `*Opaque` field, Opaque having no tagged field, next to a
tagged string. -/
def untaggedPtrRecord : GoType :=
  .struct [(⟨"Client", true, false, none⟩, .ptr (.named ⟨"Opaque", false⟩
      (.struct [(⟨"N", true, false, none⟩, .int 64)]))),
    (⟨"S", true, false, some (ascii "s")⟩, .string)]

/-- collectFields allocates a nil pointer-to-struct field before it asks hasSecretTags:
Resolve sets Client to a new zero Opaque although Opaque has no tagged field. -/
theorem resolve_allocates_untagged_pointer (lib : Lib) :
    hasSecretTags (.named ⟨"Opaque", false⟩ (.struct [(⟨"N", true, false, none⟩, .int 64)])) = false ∧
      resolve lib constConfig untaggedPtrRecord (.struct [.ptr none, .str []]) =
        (.struct [.ptr (some (.struct [.int 0])), .str (ascii "v")], []) :=
  ⟨rfl, rfl⟩

/-! ### What Resolve writes -/

/-- `r'` is `r` with values set at or below path `p`. -/
def SetsBelow (p : Path) (r r' : Value) : Prop :=
  ∃ l : List (Path × Value), r' = l.foldl (fun r u => r.set (p ++ u.1) u.2) r

theorem SetsBelow.refl (p : Path) (r : Value) : SetsBelow p r r := ⟨[], rfl⟩

theorem SetsBelow.set {p : Path} {r r' : Value} (h : SetsBelow p r r') (q : Path) (x : Value) :
    SetsBelow p r (r'.set (p ++ q) x) := by
  obtain ⟨l, rfl⟩ := h
  exact ⟨l ++ [(q, x)], by simp [List.foldl_append]⟩

/-- Writes at or below `p` leave every place disjoint from `p` as it was. -/
theorem SetsBelow.get_disjoint {p q : Path} {r r' : Value} (h : SetsBelow p r r')
    (hq : Path.Disjoint p q) : r'.get q = r.get q := by
  obtain ⟨l, rfl⟩ := h
  induction l generalizing r with
  | nil => rfl
  | cons u l ih => rw [List.foldl_cons, ih, Value.get_set_disjoint _ _ _ _ (hq.append_left u.1)]

section Assign
variable (lib : Lib) (fetched : FieldInfo → Bytes → Outcome)

theorem setAt_setsBelow {p : Path} {r r' : Value} (h : SetsBelow p r r') (name : String)
    (t : GoType) (q : Path) (raw : Bytes) : SetsBelow p r (setAt lib name t (p ++ q) raw r').1 :=
  h.set q _

/-- assignField writes only at or below the field's own path. -/
theorem assignField_setsBelow (fi : FieldInfo) (r : Value) :
    SetsBelow fi.path r (assignField lib fetched fi r).1 := by
  have h0 := SetsBelow.refl fi.path r
  have h1 := setAt_setsBelow lib h0 (fi.fieldName ++ ".Current") (slotType fi.type 0) [.field 0]
  unfold assignField
  split
  · split
    · exact h0
    · split
      · exact h0
      · dsimp only
        split
        · exact h1 _
        · split
          · exact h1 _
          · split
            · exact h1 _
            · exact setAt_setsBelow lib (h1 _) _ _ [.field 1] _
  · split
    · exact h0
    · split
      · exact h0
      · simpa using setAt_setsBelow lib h0 fi.fieldName fi.type [] _

/-- setAt below a path whose value is `w` is setAt on `w`, written back at the path. -/
theorem setAt_append (name : String) (t : GoType) {p : Path} {r w : Value} (h : r.get p = some w)
    (q : Path) (raw : Bytes) :
    setAt lib name t (p ++ q) raw r =
      (r.set p (setAt lib name t q raw w).1, (setAt lib name t q raw w).2) := by
  simp only [setAt, Value.get_append, h, Option.some_bind, Value.set_append _ _ _ _ h]

/-- assignField acts on the record only through the field's own slot: it writes back there
what the same assignment computes from the slot's value alone, and its errors come from
that value alone. -/
theorem assignField_local (fi : FieldInfo) {r w : Value} (h : r.get fi.path = some w) :
    assignField lib fetched fi r =
      (r.set fi.path (assignField lib (fun _ => fetched fi) { fi with path := [] } w).1,
        (assignField lib (fun _ => fetched fi) { fi with path := [] } w).2) := by
  have hself := Value.set_get_self h
  have hw : (r.get fi.path).isSome := by simp [h]
  unfold assignField fieldBytes
  dsimp only
  by_cases hv : fi.isVersioned = true
  · simp only [hv, if_true, List.nil_append]
    cases fetched fi [] with
    | error e => simp only [hself]
    | ok data =>
      dsimp only
      split
      · simp only [hself]
      · rw [setAt_append lib _ _ h [.field 0]]
        generalize setAt lib _ _ [.field 0] _ w = c
        dsimp only
        by_cases hc : c.2 ≠ []
        · rw [if_pos hc, if_pos hc]
        · rw [if_neg hc, if_neg hc]
          cases fetched fi (ascii "previous") with
          | error e => rfl
          | ok data' =>
            dsimp only
            split
            · rfl
            · rw [setAt_append lib _ _ (Value.get_set_self _ _ _ hw) [.field 1], Value.set_set_self]
  · simp only [hv, Bool.false_eq_true, if_false]
    cases fetched fi fi.tag.version with
    | error e => simp only [hself]
    | ok data =>
      dsimp only
      split
      · simp only [hself]
      · simpa using setAt_append lib fi.fieldName fi.type h [] _

/-- Two records with the same value in a field's slot give the field the same errors and
the same value in its slot. -/
theorem assignField_congr_slot (fi : FieldInfo) {r r' w : Value} (h : r.get fi.path = some w)
    (h' : r'.get fi.path = some w) :
    (assignField lib fetched fi r).2 = (assignField lib fetched fi r').2 ∧
      (assignField lib fetched fi r).1.get fi.path = (assignField lib fetched fi r').1.get fi.path := by
  rw [assignField_local lib fetched fi h, assignField_local lib fetched fi h']
  exact ⟨rfl, by rw [Value.get_set_self _ _ _ (by simp [h]), Value.get_set_self _ _ _ (by simp [h'])]⟩

/-- Phase 3 leaves every place disjoint from all the fields' paths as it was. -/
theorem assignAll_get_disjoint {q : Path} : ∀ {fis : List FieldInfo} {r : Value},
    (∀ fi ∈ fis, Path.Disjoint fi.path q) → (assignAll lib fetched fis r).1.get q = r.get q
  | [], _, _ => rfl
  | fi :: fis, r, h => by
    rw [assignAll, assignAll_get_disjoint fun fi' h' => h fi' (.tail _ h'),
      (assignField_setsBelow lib fetched fi r).get_disjoint (h fi (.head _))]

/-- Phase 3 over fields at pairwise disjoint paths, all present in the record: each
field's errors, and the value its slot ends with, are what its own assignment gives on the
record phase 3 starts from. -/
theorem assignAll_disjoint : ∀ {fis : List FieldInfo} {r : Value},
    (fis.map (·.path)).Pairwise Path.Disjoint → (∀ fi ∈ fis, (r.get fi.path).isSome) →
      (assignAll lib fetched fis r).2 = fis.flatMap (fun fi => (assignField lib fetched fi r).2) ∧
        ∀ fi ∈ fis, (assignAll lib fetched fis r).1.get fi.path =
          (assignField lib fetched fi r).1.get fi.path
  | [], _, _, _ => ⟨rfl, nofun⟩
  | fi :: fis, r, hd, hs => by
    rw [List.map_cons, List.pairwise_cons] at hd
    have hdis : ∀ fi' ∈ fis, Path.Disjoint fi.path fi'.path :=
      fun fi' h' => hd.1 _ (List.mem_map_of_mem _ h')
    obtain ⟨w, hw⟩ := Option.isSome_iff_exists.mp (hs fi (.head _))
    -- the first field writes only its own slot, which the others do not read
    have hslot : ∀ fi' ∈ fis, (assignField lib fetched fi r).1.get fi'.path = r.get fi'.path :=
      fun fi' h' => (assignField_setsBelow lib fetched fi r).get_disjoint (hdis fi' h')
    obtain ⟨ih1, ih2⟩ := assignAll_disjoint (r := (assignField lib fetched fi r).1) hd.2
      fun fi' h' => by rw [hslot fi' h']; exact hs fi' (.tail _ h')
    have hcongr : ∀ fi' ∈ fis, (assignField lib fetched fi' (assignField lib fetched fi r).1).2 =
          (assignField lib fetched fi' r).2 ∧
        (assignField lib fetched fi' (assignField lib fetched fi r).1).1.get fi'.path =
          (assignField lib fetched fi' r).1.get fi'.path := fun fi' h' => by
      obtain ⟨w', hw'⟩ := Option.isSome_iff_exists.mp (hs fi' (.tail _ h'))
      exact assignField_congr_slot lib fetched fi' ((hslot fi' h').trans hw') hw'
    refine ⟨?_, fun fi' h' => ?_⟩
    · simp only [assignAll, List.flatMap_cons, ih1]
      exact congrArg _ (List.flatMap_congr fun fi' h' => (hcongr fi' h').1)
    · rcases List.mem_cons.mp h' with rfl | h'
      · exact assignAll_get_disjoint lib fetched fun fi' h' => (hdis fi' h').symm
      · exact (ih2 fi' h').trans (hcongr fi' h').2

end Assign
section Walked
variable (lib : Lib) (cfg : ResolverConfig)

theorem Walked.setsBelow {t : GoType} {r r' : Value} (hr : Walked cfg t r) {fi : FieldInfo}
    (hfi : fi ∈ (collectFields cfg t r).2.fields) (h : SetsBelow fi.path r r') : Walked cfg t r' := by
  obtain ⟨l, rfl⟩ := h
  induction l generalizing r with
  | nil => exact hr
  | cons u l ih =>
    exact ih ((walked_set cfg t).1 r hr fi hfi u.1 u.2)
      (by rwa [(collectFields_found_eq cfg t).1 _ r])

theorem assignAll_walked {t : GoType} (fetched : FieldInfo → Bytes → Outcome) :
    ∀ (fis : List FieldInfo) (r : Value), Walked cfg t r →
      (∀ fi ∈ fis, fi ∈ (collectFields cfg t r).2.fields) → Walked cfg t (assignAll lib fetched fis r).1
  | [], _, hr, _ => hr
  | fi :: fis, r, hr, h => by
    have h1 := hr.setsBelow cfg (h fi (.head _)) (assignField_setsBelow lib fetched fi r)
    refine assignAll_walked fetched fis _ h1 fun fi' hfi' => ?_
    rw [(collectFields_found_eq cfg t).1 _ r]
    exact h fi' (.tail _ hfi')

/-- Resolve leaves a record that walking again does not change. -/
theorem resolveFrom_walked {t : GoType} (ht : t.kind = .struct)
    (fetched : List FetchSpec → FieldInfo → Bytes → Outcome) (v : Value) :
    Walked cfg t (resolveFrom lib cfg fetched t v).1 := by
  have hw := (collectFields_idem cfg t).1 v
  unfold resolveFrom
  simp only [ht, ne_eq, not_true_eq_false, if_false]
  split
  · exact hw
  · exact assignAll_walked lib cfg _ _ _ hw fun fi hfi => by
      rwa [(collectFields_found_eq cfg t).1 _ v]

/-- Resolve, under any interleaving of its fetches, assigns each collected field on its own.
Its errors are the walk's, then each field's own in walker order; each field's slot ends
with what the field's own assignment gives on the walked record; and every place disjoint
from all the collected fields keeps what the walk left there. The fields' slots are
pairwise disjoint and all exist in the walked record, so no assignment sees or disturbs
another. -/
theorem resolveWith_assigns_fields_apart (schedule : List FetchSpec → List FetchSpec)
    {t : GoType} (ht : t.kind = .struct) (v : Value) :
    let c := collectFields cfg t v
    let fetched := sharedResult (storeResults (schedule (plan c.2.fields)))
    (resolveWith lib cfg schedule t v).2 =
        c.2.errs ++ c.2.fields.flatMap (fun fi => (assignField lib fetched fi c.1).2) ∧
      (∀ fi ∈ c.2.fields, (resolveWith lib cfg schedule t v).1.get fi.path =
        (assignField lib fetched fi c.1).1.get fi.path) ∧
      ∀ q, (∀ fi ∈ c.2.fields, Path.Disjoint fi.path q) →
        (resolveWith lib cfg schedule t v).1.get q = c.1.get q := by
  intro c fetched
  have hw := (collectFields_idem cfg t).1 v
  have hF : (collectFields cfg t c.1).2 = c.2 := (collectFields_found_eq cfg t).1 _ v
  have hs : ∀ fi ∈ c.2.fields, (c.1.get fi.path).isSome := fun fi hfi =>
    (collectFields_get_isSome cfg t).1 c.1 hw fi (hF ▸ hfi)
  obtain ⟨h1, h2⟩ := assignAll_disjoint lib fetched ((collectFields_disjoint cfg t).1 v) hs
  unfold resolveWith resolveFrom
  simp only [ht, ne_eq, not_true_eq_false, if_false]
  split
  · rename_i he
    have hnil : c.2.fields = [] := List.isEmpty_iff.mp he.2
    simp only [hnil, List.flatMap_nil, List.append_nil, List.not_mem_nil, false_implies,
      implies_true, and_self]
  · exact ⟨by rw [← h1], h2, fun q hq => assignAll_get_disjoint lib fetched hq⟩

theorem resolveWith_assigns_fields_apart_shared_tag :
    sharedTagRecord.kind = .struct ∧
      let c := collectFields constConfig sharedTagRecord sharedTagRecord.zero
      let fetched := sharedResult (storeResults (List.reverse (plan c.2.fields)))
      (resolveWith Lib.stringsOnly constConfig List.reverse sharedTagRecord sharedTagRecord.zero).2 =
          c.2.errs ++ c.2.fields.flatMap (fun fi => (assignField Lib.stringsOnly fetched fi c.1).2) ∧
        (∀ fi ∈ c.2.fields,
          (resolveWith Lib.stringsOnly constConfig List.reverse sharedTagRecord sharedTagRecord.zero).1.get
            fi.path = (assignField Lib.stringsOnly fetched fi c.1).1.get fi.path) ∧
        ∀ q, (∀ fi ∈ c.2.fields, Path.Disjoint fi.path q) →
          (resolveWith Lib.stringsOnly constConfig List.reverse sharedTagRecord
            sharedTagRecord.zero).1.get q = c.1.get q :=
  ⟨rfl, resolveWith_assigns_fields_apart Lib.stringsOnly constConfig List.reverse (t := sharedTagRecord) rfl _⟩

end Walked

/-! ### Resolving a resolved record -/

section Idempotence
variable (lib : Lib) (cfg : ResolverConfig)

/-- setAt depends on the record only through the value at its path, and writes back there:
a record it leaves unchanged tells what it does to any record with the same value there. -/
theorem setAt_of_fixed {name : String} {t : GoType} {p : Path} {raw : Bytes} {r r' : Value}
    {e : List GoError} (h : setAt lib name t p raw r = (r, e)) (hg : r'.get p = r.get p) :
    setAt lib name t p raw r' = (r', e) := by
  simp only [setAt, Prod.mk.injEq] at h ⊢
  rw [hg]
  cases hr : r.get p with
  | none =>
    rw [hr] at h hg
    exact ⟨Value.set_of_get_eq_none _ hg, h.2⟩
  | some w =>
    rw [hr] at h hg
    simp only [Option.getD_some] at h ⊢
    have hx : (setField lib name t raw w).1 = w := by
      have := Value.get_set_self (setField lib name t raw w).1 p r (by simp [hr])
      rw [h.1, hr] at this
      exact (Option.some.inj this).symm
    exact ⟨by rw [hx]; exact Value.set_get_self hg, h.2⟩

variable (hu : ∀ t raw v, lib.unmarshalText t raw (lib.unmarshalText t raw v).1 = lib.unmarshalText t raw v)
include hu

theorem setAt_idem (name : String) (t : GoType) (p : Path) (raw : Bytes) (r : Value) :
    setAt lib name t p raw (setAt lib name t p raw r).1 = setAt lib name t p raw r := by
  cases h : r.get p with
  | none =>
    have : (setAt lib name t p raw r).1 = r := by simpa [setAt] using Value.set_of_get_eq_none _ h
    rw [this]
  | some w =>
    have hs : (r.get p).isSome := by simp [h]
    simp only [setAt, h, Option.getD_some, Value.get_set_self _ _ _ hs, setField_idem lib name hu,
      Value.set_set_self]

theorem assignField_idem (fetched : FieldInfo → Bytes → Outcome) (fi : FieldInfo) (r : Value) :
    assignField lib fetched fi (assignField lib fetched fi r).1 = assignField lib fetched fi r := by
  unfold assignField
  by_cases hv : fi.isVersioned = true
  · simp only [hv, if_true]
    cases fetched fi [] with
    | error e => rfl
    | ok data =>
      dsimp only
      cases fieldBytes lib fi data with
      | error e => rfl
      | ok cur =>
        dsimp only
        set C := setAt lib (fi.fieldName ++ ".Current") (slotType fi.type 0) (fi.path ++ [.field 0]) cur
        have hCi : C (C r).1 = C r := setAt_idem lib hu _ _ _ _ r
        by_cases hc : (C r).2 ≠ []
        · simp only [if_pos hc, hCi]
        · simp only [if_neg hc]
          cases fetched fi (ascii "previous") with
          | error e => simp only [hCi, if_neg hc]
          | ok data' =>
            dsimp only
            cases fieldBytes lib fi data' with
            | error e => simp only [hCi, if_neg hc]
            | ok prev =>
              dsimp only
              set P := setAt lib (fi.fieldName ++ ".Previous") (slotType fi.type 1)
                (fi.path ++ [.field 1]) prev
              -- Previous is set apart from Current, which the first run left settled
              have hfix : C (C r).1 = ((C r).1, []) := by rw [hCi]; exact Prod.ext rfl (not_not.mp hc)
              have hg : (P (C r).1).1.get (fi.path ++ [.field 0]) = (C r).1.get (fi.path ++ [.field 0]) :=
                Value.get_set_disjoint _ _ _ _ (by simp [Path.Disjoint])
              have hfix' : C (P (C r).1).1 = ((P (C r).1).1, []) := setAt_of_fixed lib hfix hg
              rw [hfix']
              simp only [ne_eq, not_true_eq_false, if_false, P, setAt_idem lib hu]
  · simp only [hv, Bool.false_eq_true, if_false]
    cases fetched fi fi.tag.version with
    | error e => rfl
    | ok data =>
      dsimp only
      cases fieldBytes lib fi data with
      | error e => rfl
      | ok v => exact setAt_idem lib hu _ _ _ _ r

/-- Phase 3 run again over fields at pairwise disjoint paths, all present in the record,
changes nothing and reports the same errors. -/
theorem assignAll_idem (fetched : FieldInfo → Bytes → Outcome) : ∀ {fis : List FieldInfo} {r : Value},
    (fis.map (·.path)).Pairwise Path.Disjoint → (∀ fi ∈ fis, (r.get fi.path).isSome) →
      assignAll lib fetched fis (assignAll lib fetched fis r).1 = assignAll lib fetched fis r
  | [], _, _, _ => rfl
  | fi :: fis, r, hd, hs => by
    rw [List.map_cons, List.pairwise_cons] at hd
    have hdis : ∀ fi' ∈ fis, Path.Disjoint fi.path fi'.path :=
      fun fi' h' => hd.1 _ (List.mem_map_of_mem _ h')
    obtain ⟨w, hw⟩ := Option.isSome_iff_exists.mp (hs fi (.head _))
    have hloc := assignField_local lib fetched fi hw
    -- the field's slot ends with its own assignment, which the later fields leave alone
    have hslot : (assignAll lib fetched fis (assignField lib fetched fi r).1).1.get fi.path =
        some (assignField lib (fun _ => fetched fi) { fi with path := [] } w).1 := by
      rw [assignAll_get_disjoint lib fetched fun fi' h' => (hdis fi' h').symm, hloc]
      exact Value.get_set_self _ _ _ (by simp [hw])
    have hs' : ∀ fi' ∈ fis, ((assignField lib fetched fi r).1.get fi'.path).isSome := fun fi' h' => by
      rw [(assignField_setsBelow lib fetched fi r).get_disjoint (hdis fi' h')]
      exact hs fi' (.tail _ h')
    simp only [assignAll]
    rw [assignField_local lib fetched fi hslot, assignField_idem lib hu, Value.set_get_self hslot,
      assignAll_idem fetched hd.2 hs', hloc]

/-- Resolve's three phases run again on the record they returned, with the same results,
return it unchanged with the same errors. -/
theorem resolveFrom_idem (fetched : List FetchSpec → FieldInfo → Bytes → Outcome) (t : GoType)
    (v : Value) :
    resolveFrom lib cfg fetched t (resolveFrom lib cfg fetched t v).1 = resolveFrom lib cfg fetched t v := by
  by_cases ht : t.kind = .struct
  · have hw : Walked cfg t (collectFields cfg t v).1 := (collectFields_idem cfg t).1 v
    have hF := fun w => (collectFields_found_eq cfg t).1 w v
    have hs : ∀ fi ∈ (collectFields cfg t v).2.fields, ((collectFields cfg t v).1.get fi.path).isSome :=
      fun fi hfi => (collectFields_get_isSome cfg t).1 _ hw fi ((hF _).symm ▸ hfi)
    simp only [resolveFrom, ht, ne_eq, not_true_eq_false, if_false]
    by_cases hE : ¬(collectFields cfg t v).2.errs = [] ∧ (collectFields cfg t v).2.fields.isEmpty = true
    · rw [if_pos hE, hw, hF, if_pos hE]
    · have hwa := assignAll_walked lib cfg (fetched (plan (collectFields cfg t v).2.fields)) _ _ hw
        fun fi hfi => by rwa [hF]
      rw [if_neg hE, hwa, hF, if_neg hE,
        assignAll_idem lib hu _ ((collectFields_disjoint cfg t).1 v) hs]
  · simp only [resolveFrom, ht, ne_eq, not_false_eq_true, if_true]

/-- Resolve run again on the record it returned, against providers that answer as before,
returns that record unchanged and the same errors, whatever the interleaving of the fetch
goroutines in either run, provided every UnmarshalText, run again on the text it was given,
leaves what it left the first time. -/
theorem resolveWith_idem (schedule schedule' : List FetchSpec → List FetchSpec)
    (hs : ∀ specs, (schedule specs).Perm specs) (hs' : ∀ specs, (schedule' specs).Perm specs)
    (t : GoType) (v : Value) :
    resolveWith lib cfg schedule' t (resolveWith lib cfg schedule t v).1 = resolveWith lib cfg schedule t v := by
  have hsw : ∀ w, resolveWith lib cfg schedule' t w = resolveWith lib cfg schedule t w := fun w =>
    resolveFrom_congr lib cfg fun _ _ _ _ => by
      unfold sharedResult
      rw [storeResults_perm (hs' _) (((hs' _).map _).nodup_iff.mpr (plan_nodup _)),
        storeResults_perm (hs _) (((hs _).map _).nodup_iff.mpr (plan_nodup _))]
  rw [hsw]
  exact resolveFrom_idem lib cfg hu _ t v

end Idempotence

theorem resolveWith_idem_shared_tag :
    (∀ t raw v, Lib.stringsOnly.unmarshalText t raw (Lib.stringsOnly.unmarshalText t raw v).1 =
      Lib.stringsOnly.unmarshalText t raw v) ∧
    (∀ specs : List FetchSpec, (id specs).Perm specs) ∧ (∀ specs : List FetchSpec, specs.reverse.Perm specs) ∧
    resolveWith Lib.stringsOnly constConfig List.reverse sharedTagRecord
        (resolveWith Lib.stringsOnly constConfig id sharedTagRecord sharedTagRecord.zero).1 =
      resolveWith Lib.stringsOnly constConfig id sharedTagRecord sharedTagRecord.zero :=
  ⟨fun _ _ _ => rfl, fun _ => List.Perm.refl _, List.reverse_perm,
    resolveWith_idem Lib.stringsOnly constConfig (fun _ _ _ => rfl) id List.reverse
      (fun _ => List.Perm.refl _) List.reverse_perm sharedTagRecord sharedTagRecord.zero⟩

end GoSecrets
