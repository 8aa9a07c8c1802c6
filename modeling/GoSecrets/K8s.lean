import GoSecrets.JsonRoundTrip
import GoSecrets.Resolve

/-! The Kubernetes provider (package k8s): Get("namespace/name") reads the Secret's data
map through a client and returns it JSON-encoded with each value as a string, for
extractFragment to take one key from. The client is a parameter. -/
namespace GoSecrets.K8s

open Json Fragment

/-- A Secret's data map: distinct keys, each with its bytes. -/
structure SecretData where
  entries : List (Bytes × Bytes)
  nodup : (entries.map Prod.fst).Nodup

/-- Client.GetSecret(ctx, namespace, name). -/
abbrev Client := Bytes → Bytes → Except GoError SecretData

/-- The error of parseKey: `invalid key %q: expected "namespace/name"`. -/
def invalidKey (key : Bytes) : GoError :=
  .wrap "invalid key" (some key) (.other "expected \"namespace/name\"")

/-- parseKey: strings.SplitN(key, "/", 2), both parts nonempty. -/
def parseKey (key : Bytes) : Except GoError (Bytes × Bytes) :=
  match cut [byte '/'] key with
  | some (ns, name) => if ns ≠ [] ∧ name ≠ [] then .ok (ns, name) else .error (invalidKey key)
  | none => .error (invalidKey key)

/-- `json.Marshal(strData)`, where strData holds `string(v)` for each value `v`. -/
def secretJSON (data : SecretData) : Bytes :=
  encodeObject (data.entries.map fun p => (p.1, encodeString p.2))

/-- Provider.Get(ctx, key). Marshaling a map of strings cannot fail. -/
def get (client : Client) (key : Bytes) : Outcome :=
  match parseKey key with
  | .error e => .error (.wrap "k8s" none e)
  | .ok (ns, name) =>
    match client ns name with
    | .error e => .error (.wrap "k8s: secret" (some key) e)
    | .ok data => .ok (secretJSON data)

/-- k8s.Provider, which does not implement VersionedProvider. -/
def provider (client : Client) : Provider := ⟨get client, none⟩

theorem get_ok {client : Client} {key ns name : Bytes} {data : SecretData}
    (hkey : parseKey key = .ok (ns, name)) (hc : client ns name = .ok data) :
    get client key = .ok (secretJSON data) := by
  simp only [get, hkey, hc]

theorem get_missing {client : Client} {key ns name : Bytes} {e : GoError}
    (hkey : parseKey key = .ok (ns, name)) (hc : client ns name = .error e) :
    get client key = .error (.wrap "k8s: secret" (some key) e) := by
  simp only [get, hkey, hc]

/-- parseKey accepts exactly "namespace/name" with both parts nonempty; the name may hold
further slashes. -/
theorem parseKey_eq_ok {key ns name : Bytes} :
    parseKey key = .ok (ns, name) ↔
      key = ns ++ byte '/' :: name ∧ byte '/' ∉ ns ∧ ns ≠ [] ∧ name ≠ [] := by
  unfold parseKey
  constructor
  · intro h
    split at h
    · rename_i a b hc
      split_ifs at h with hab
      cases h
      exact ⟨(cut_single_eq_some.mp hc).1, (cut_single_eq_some.mp hc).2, hab⟩
    · cases h
  · rintro ⟨rfl, hn, hns, hname⟩
    rw [cut_single_eq_some.mpr ⟨rfl, hn⟩]
    exact if_pos ⟨hns, hname⟩

theorem parseKey_eq_ok_ns_name : parseKey (ascii "ns/name") = .ok (ascii "ns", ascii "name") :=
  parseKey_eq_ok.mpr ⟨rfl, by decide, by decide, by decide⟩

/-- A key without a dot is a path of one component. -/
theorem splitOn_dot {k : Bytes} (hk : byte '.' ∉ k) : k.splitOn (byte '.') = [k] :=
  List.splitOnP_eq_single _ _ fun x hx h => hk (by simpa using (beq_iff_eq.mp h) ▸ hx)

/-- extractFragment takes back the value of a key without a dot from what Get returns, when
the Secret's keys and that value are valid UTF-8; the other values may hold any bytes. -/
theorem extractFragment_secretJSON (fl : FloatLib) (data : SecretData)
    (hkeys : ∀ p ∈ data.entries, ValidUTF8 p.1) {k v : Bytes} (hv : ValidUTF8 v)
    (hk : (k, v) ∈ data.entries) (hdot : byte '.' ∉ k) :
    extractFragment fl (secretJSON data) k = .ok v := by
  have hperm := sortByKey_perm data.entries
  have hlookup := lookup_foldl_upsert (fun w => .string (readString w)) (sortByKey data.entries) []
    ((hperm.map Prod.fst).nodup_iff.mpr data.nodup) (hperm.mem_iff.mpr hk)
  have hne : data.entries ≠ [] := List.ne_nil_of_mem hk
  simp only [extractFragment, secretJSON, unmarshal_encodeObject fl _ hne hkeys,
    splitOn_dot hdot, List.foldlM_cons, List.foldlM_nil, bind, Except.bind, descend, hlookup, pure,
    Except.pure, readString_of_valid hv]
  rfl

/-- For a Secret whose keys are valid UTF-8, extractFragment of what Get returns gives back
the value of each key without a dot whose value is valid UTF-8. -/
theorem get_fragment_eq_value (fl : FloatLib) (client : Client) (key ns name : Bytes)
    (data : SecretData) (hkey : parseKey key = .ok (ns, name)) (hc : client ns name = .ok data)
    (hkeys : ∀ p ∈ data.entries, ValidUTF8 p.1) {k v : Bytes} (hv : ValidUTF8 v)
    (hk : (k, v) ∈ data.entries) (hdot : byte '.' ∉ k) :
    (get client key >>= fun b => extractFragment fl b k) = .ok v := by
  rw [get_ok hkey hc]
  exact extractFragment_secretJSON fl data hkeys hv hk hdot

/-- A Secret with a binary value next to a text one. -/
def mixedClient : Client := fun _ _ =>
  .ok ⟨[(ascii "key1", ascii "value1"), (ascii "bin", [0xFF])], by decide⟩

theorem get_fragment_eq_value_mixed :
    parseKey (ascii "ns/name") = .ok (ascii "ns", ascii "name") ∧
      (get mixedClient (ascii "ns/name") >>= fun b =>
        extractFragment Lib.stringsOnly.toFloatLib b (ascii "key1")) = .ok (ascii "value1") :=
  ⟨rfl, get_fragment_eq_value Lib.stringsOnly.toFloatLib mixedClient (ascii "ns/name") (ascii "ns")
    (ascii "name") _ rfl rfl (fun p hp => by
      simp only [mixedClient, List.mem_cons, List.not_mem_nil, or_false] at hp
      rcases hp with rfl | rfl <;> exact validUTF8_of_ascii _ (by decide))
    (validUTF8_of_ascii _ (by decide)) (by decide) (by decide)⟩

/-- A kubernetes.io/tls Secret, with a binary value next to the certificate. -/
def tlsClient : Client := fun _ _ =>
  .ok ⟨[(ascii "tls.crt", ascii "x"), (ascii "bin", [0xFF])], by decide⟩

/-- The key "tls.crt" cannot be addressed, since the path is split on every dot; and the
byte 0xFF comes back as the three bytes of U+FFFD. -/
theorem get_fragment_dotted_key_invalid_utf8 :
    (get tlsClient (ascii "ns/name") >>= fun b =>
        extractFragment Lib.stringsOnly.toFloatLib b (ascii "tls.crt")) =
        .error (.fragmentNotFound (ascii "tls.crt")) ∧
      (get tlsClient (ascii "ns/name") >>= fun b =>
        extractFragment Lib.stringsOnly.toFloatLib b (ascii "bin")) = .ok [0xEF, 0xBF, 0xBD] :=
  ⟨rfl, rfl⟩

/-! ### Resolve on optional fields whose Secret is missing -/

/-- A collected field backed by the k8s provider, optional and with no version, whose Secret
the client reports missing. -/
structure MissingOptional (client : Client) (fi : FieldInfo) : Prop where
  provider_eq : fi.provider = provider client
  not_versioned : fi.isVersioned = false
  version_nil : fi.tag.version = []
  optional : fi.tag.optional = true
  missing : ∃ ns name e, parseKey fi.tag.key = .ok (ns, name) ∧ client ns name = .error e ∧
    e.isNotFound = true

section Missing
variable {client : Client} {F : List FieldInfo} (hF : ∀ fi ∈ F, MissingOptional client fi)
include hF

/-- Every fetch such fields plan fails with an error that errors.Is matches against
ErrNotFound. -/
theorem fetch_missing {s : FetchSpec} (hs : s ∈ F.flatMap FieldInfo.needs) :
    ∃ e, s.fetch = .error e ∧ e.isNotFound = true := by
  obtain ⟨fi, hfi, hn⟩ := List.mem_flatMap.mp hs
  obtain ⟨hp, hv, hver, -, ns, name, e, hkey, hc, he⟩ := hF fi hfi
  rw [FieldInfo.needs, if_neg (by simp [hv]), List.mem_singleton] at hn
  subst hn
  refine ⟨.wrap "k8s: secret" (some fi.tag.key) e, ?_, he⟩
  rw [FetchSpec.fetch, if_neg (by simp [hver]), hp]
  exact get_missing hkey hc

/-- Under any interleaving of the fetches, each such field's assignment drops its NotFound,
since the field is optional, and leaves the record as it was. -/
theorem assignField_missing (lib : Lib) {schedule : List FetchSpec → List FetchSpec}
    (hs : ∀ specs, (schedule specs).Perm specs) {fi : FieldInfo} (hfi : fi ∈ F) (r : Value) :
    assignField lib (sharedResult (storeResults (schedule (plan F)))) fi r = (r, []) := by
  obtain ⟨-, hv, -, hopt, -⟩ := hF fi hfi
  have hn : (⟨⟨fi.tag.uri, fi.tag.version⟩, fi, fi.tag.version⟩ : FetchSpec) ∈ fi.needs := by
    simp [FieldInfo.needs, hv]
  obtain ⟨s, hs', -, hres⟩ := sharedResult_schedule hs hfi hn
  obtain ⟨e, he, hnf⟩ := fetch_missing hF hs'
  simp only [assignField, hv, hres, he, hopt, hnf, Bool.false_eq_true, if_false, and_self, if_true]

end Missing

/-- Phase 3 leaves the record as it was and reports nothing when every field's assignment
does. -/
theorem assignAll_unchanged (lib : Lib) {fetched : FieldInfo → Bytes → Outcome} :
    ∀ {fis : List FieldInfo} {r : Value}, (∀ fi ∈ fis, ∀ r, assignField lib fetched fi r = (r, [])) →
      assignAll lib fetched fis r = (r, [])
  | [], _, _ => rfl
  | fi :: fis, r, h => by
    simp only [assignAll, h fi (.head _) r, assignAll_unchanged lib fun fi' hfi' => h fi' (.tail _ hfi'),
      List.append_nil]

/-- Resolve, under any interleaving of its fetches, leaves a record whose collected fields
are all optional, backed by the k8s provider and missing from the cluster, as collecting
left it, and reports only the configuration errors: no field fails for its missing Secret. -/
theorem resolveWith_missing_optional (lib : Lib) (cfg : ResolverConfig) (client : Client)
    {schedule : List FetchSpec → List FetchSpec} (hs : ∀ specs, (schedule specs).Perm specs)
    (t : GoType) (ht : t.kind = .struct) (v : Value)
    (hF : ∀ fi ∈ (collectFields cfg t v).2.fields, MissingOptional client fi) :
    resolveWith lib cfg schedule t v = ((collectFields cfg t v).1, (collectFields cfg t v).2.errs) := by
  unfold resolveWith resolveFrom
  simp only [ht, ne_eq, not_true_eq_false, if_false]
  split
  · rfl
  · rw [assignAll_unchanged lib fun fi hfi r => assignField_missing hF lib hs hfi r, List.append_nil]

/-- A client whose Secrets are all missing. -/
def missingClient : Client := fun _ _ => .error (.notFound "secret not found")

/-- NewResolver(WithProvider("k8s", k8s.New(missingClient))). -/
def missingConfig : ResolverConfig := newResolver [withProvider (ascii "k8s") (provider missingClient)]

/-- `struct { DB string secret:"k8s://ns/db,optional" }`. -/
def optionalRecord : GoType :=
  .struct [(⟨"DB", true, false, some (ascii "k8s://ns/db,optional")⟩, .string)]

/-- The field collectFields finds in optionalRecord. -/
def optionalField : FieldInfo :=
  ⟨"DB", [.field 0], .string, ⟨ascii "k8s", ascii "ns/db", [], true, []⟩, provider missingClient,
    ascii "k8s", false⟩

theorem resolveWith_missing_optional_db :
    (collectFields missingConfig optionalRecord optionalRecord.zero).2.fields = [optionalField] ∧
      resolve Lib.stringsOnly missingConfig optionalRecord optionalRecord.zero =
        (optionalRecord.zero, []) := by
  have hF : (collectFields missingConfig optionalRecord optionalRecord.zero).2.fields =
      [optionalField] := rfl
  refine ⟨hF, (resolveWith_missing_optional Lib.stringsOnly missingConfig missingClient
    (fun _ => List.Perm.refl _) optionalRecord rfl optionalRecord.zero fun fi h => ?_).trans rfl⟩
  rw [hF, List.mem_singleton] at h
  subst h
  exact ⟨rfl, rfl, rfl, rfl, _, _, _, rfl, rfl, rfl⟩

end GoSecrets.K8s
