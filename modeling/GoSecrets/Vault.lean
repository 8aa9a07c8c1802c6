import GoSecrets.Resolve

/-! The HashiCorp Vault provider (package vault): Get reads the latest version of a KV v2
secret through a client and returns one key of its data map; GetVersion parses the version
with strconv.Atoi. The client is a parameter. Resolve asks the provider of a Versioned[T]
field for the version "previous", which Atoi rejects. -/
namespace GoSecrets.Vault

open Fragment

/-- A value of a secret's data map, by its dynamic type: a string, a byte slice, or any
other value, given by what fmt's %v prints for it. -/
inductive DataValue where
  | str (s : Bytes)
  | bytes (b : Bytes)
  | other (shown : Bytes)
deriving DecidableEq, Repr

/-- A secret's data map, a Go map whose keys are distinct; `none` is a nil map. -/
abbrev Data := Option (List (Bytes × DataValue))

/-- The Client interface: Get(ctx, path) and GetVersion(ctx, path, version). -/
structure Client where
  get : Bytes → Except GoError Data
  getVersion : Bytes → Int → Except GoError Data

/-- vault.Provider: its client and the key of the data map it returns. -/
structure Provider where
  dataKey : Bytes
  client : Client

/-- `fmt.Errorf("vault: secret %q: %w", key, err)`. -/
def secretError (key : Bytes) (e : GoError) : GoError := .wrap "vault: secret" (some key) e

/-- `vault: secret %q: data key %q not found`, which wraps no error. -/
def missingDataKey (key dataKey : Bytes) : GoError :=
  secretError key (.quoted "data key" dataKey " not found")

/-- `vault: secret %q: invalid version %q: must be integer or "current"`, which wraps no
error. -/
def invalidVersion (key version : Bytes) : GoError :=
  secretError key (.wrap "invalid version" (some version) (.other "must be integer or \"current\""))

/-- extractValue(key, data): the value under the data key, as bytes. -/
def extractValue (dataKey key : Bytes) (data : Data) : Outcome :=
  match data with
  | none => .error (secretError key (.notFound "secret not found"))
  | some m =>
    match m.lookup dataKey with
    | none => .error (missingDataKey key dataKey)
    | some (.str s) => .ok s
    | some (.bytes b) => .ok b
    | some (.other shown) => .ok shown

/-- Provider.Get(ctx, key). -/
def Provider.get (p : Provider) (key : Bytes) : Outcome :=
  match p.client.get key with
  | .error e => .error (secretError key e)
  | .ok data => extractValue p.dataKey key data

/-- Provider.GetVersion(ctx, key, version): "current" is Get; any other version must be an
integer. -/
def Provider.getVersion (p : Provider) (key version : Bytes) : Outcome :=
  if version = ascii "current" then p.get key
  else
    match atoi version with
    | none => .error (invalidVersion key version)
    | some v =>
      match p.client.getVersion key v with
      | .error e => .error (secretError key e)
      | .ok data => extractValue p.dataKey key data

/-- The provider as the resolver sees it: a VersionedProvider. -/
def Provider.toProvider (p : Provider) : GoSecrets.Provider := ⟨p.get, some p.getVersion⟩

/-- A version other than "current" that Atoi rejects fails before the client is asked,
with an error that is not ErrNotFound. -/
theorem getVersion_of_atoi_none (p : Provider) (key : Bytes) {version : Bytes}
    (hc : version ≠ ascii "current") (ha : atoi version = none) :
    p.getVersion key version = .error (invalidVersion key version) ∧
      (invalidVersion key version).isNotFound = false := by
  simp [Provider.getVersion, hc, ha, invalidVersion, secretError, GoError.isNotFound]

/-- GetVersion(key, "previous") fails for every client, data key and key. -/
theorem getVersion_previous (p : Provider) (key : Bytes) :
    p.getVersion key (ascii "previous") = .error (invalidVersion key (ascii "previous")) ∧
      (invalidVersion key (ascii "previous")).isNotFound = false :=
  getVersion_of_atoi_none p key (by decide) (by decide)

/-! ### Resolve on a Versioned field backed by Vault -/

/-- The previous fetch of any field backed by Vault fails with an error that is not
ErrNotFound. -/
theorem fetch_previous {s : FetchSpec} {p : Provider} (hp : s.fi.provider = p.toProvider)
    (hv : s.version = ascii "previous") :
    s.fetch = .error (invalidVersion s.fi.tag.key (ascii "previous")) := by
  rw [FetchSpec.fetch, if_pos (hv ▸ by decide), hp, hv]
  exact (getVersion_previous p _).1

/-- Resolve, under any interleaving of its fetches, reports an error on every record with a
required Versioned[T] field backed by Vault: the field's previous fetch is
GetVersion(key, "previous"), which Atoi rejects. The URIs of the collected fields hold no
'@', so only fields with the same URI share the field's String()s, and those are backed by
Vault too. -/
theorem resolveWith_vault_versioned_fails (lib : Lib) (cfg : ResolverConfig)
    {schedule : List FetchSpec → List FetchSpec} (hs : ∀ specs, (schedule specs).Perm specs)
    (t : GoType) (v : Value) (fi : FieldInfo) (hfi : fi ∈ (collectFields cfg t v).2.fields)
    (hver : fi.isVersioned = true) (hreq : fi.tag.optional = false)
    (hat : ∀ fi' ∈ (collectFields cfg t v).2.fields, byte '@' ∉ fi'.tag.uri)
    (hvault : ∀ fi' ∈ (collectFields cfg t v).2.fields, fi'.tag.uri = fi.tag.uri →
      ∃ p : Provider, fi'.provider = p.toProvider) :
    (resolveWith lib cfg schedule t v).2 ≠ [] := by
  intro h
  obtain ⟨r, hr⟩ := resolveFrom_errors_eq_nil lib cfg h hfi
  have hn : (⟨⟨fi.tag.uri, ascii "previous"⟩, fi, ascii "previous"⟩ : FetchSpec) ∈ fi.needs := by
    simp [FieldInfo.needs, hver]
  obtain ⟨s, hs', hk, hres⟩ := sharedResult_schedule hs hfi hn
  obtain ⟨fi', hfi', hsn⟩ := List.mem_flatMap.mp hs'
  have hspec := FieldInfo.needs_spec hsn
  have hkey : fi'.tag.uri = fi.tag.uri ∧ s.version = ascii "previous" := by
    rw [hspec] at hk
    simpa using FetchKey.string_inj_versioned hk (hat fi' hfi') (hat fi hfi)
      (show ascii "previous" ≠ [] by decide)
  obtain ⟨p, hp⟩ := hvault fi' hfi' hkey.1
  have hsp : s.fi.provider = p.toProvider := by rw [hspec]; exact hp
  have ho := (assignField_versioned_errors_eq_nil lib hver (hres.trans (fetch_previous hsp hkey.2))
    (getVersion_previous p _).2 hr).1
  rw [hreq] at ho
  cases ho

/-- A client whose every secret maps "value" to "s3cret", at every version. -/
def s3cretClient : Client :=
  ⟨fun _ => .ok (some [(ascii "value", .str (ascii "s3cret"))]),
    fun _ _ => .ok (some [(ascii "value", .str (ascii "s3cret"))])⟩

/-- New(WithClient(s3cretClient)): the data key is "value". -/
def s3cretProvider : Provider := ⟨ascii "value", s3cretClient⟩

/-- NewResolver(WithProvider("vault", s3cretProvider)). -/
def vaultConfig : ResolverConfig :=
  newResolver [withProvider (ascii "vault") s3cretProvider.toProvider]

/-- `struct { DB secrets.Versioned[string] secret:"vault://db" }`. -/
def versionedVaultRecord : GoType :=
  .struct [(⟨"DB", true, false, some (ascii "vault://db")⟩, versionedType .string)]

/-- The field collectFields finds in versionedVaultRecord. -/
def dbField : FieldInfo :=
  ⟨"DB", [.field 0], versionedType .string, ⟨ascii "vault", ascii "db", [], false, []⟩,
    s3cretProvider.toProvider, ascii "vault", true⟩

/-- Every version of the secret exists, yet Resolve reports the previous fetch's error. -/
theorem resolveWith_vault_versioned_fails_db :
    (collectFields vaultConfig versionedVaultRecord versionedVaultRecord.zero).2.fields = [dbField] ∧
      (resolveWith Lib.stringsOnly vaultConfig id versionedVaultRecord versionedVaultRecord.zero).2 ≠ [] ∧
      (resolve Lib.stringsOnly vaultConfig versionedVaultRecord versionedVaultRecord.zero).2 =
        [.field "DB" (invalidVersion (ascii "db") (ascii "previous"))] := by
  have hF : (collectFields vaultConfig versionedVaultRecord versionedVaultRecord.zero).2.fields =
      [dbField] := rfl
  refine ⟨hF, resolveWith_vault_versioned_fails Lib.stringsOnly vaultConfig List.Perm.refl
    versionedVaultRecord versionedVaultRecord.zero dbField (hF ▸ List.mem_singleton_self _) rfl rfl
    (hF ▸ by decide) (fun fi' h _ => ⟨s3cretProvider, by rw [hF, List.mem_singleton] at h; rw [h]; rfl⟩),
    rfl⟩

end GoSecrets.Vault
