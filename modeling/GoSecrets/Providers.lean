import GoSecrets.Basic

/-! The providers of packages file, env, literal, gcpsm, awsps and onepassword, each over
what it reads (the file system, the environment, its maps, its client), and the trim of
the file provider. -/
namespace GoSecrets.Providers

/-- `ErrNotFound`. -/
def errNotFound : GoError := .notFound "secret not found"

/-! ### bytes.TrimRight -/

/-- bytes.TrimRight(s, cutset) for an ASCII cutset: `s` without its longest suffix of
bytes of the cutset. Go scans from the right; this recursion runs from the left and keeps
a byte unless it is in the cutset and everything after it was trimmed. -/
def trimRight (cutset : Bytes) : Bytes → Bytes
  | [] => []
  | b :: s => if trimRight cutset s = [] ∧ b ∈ cutset then [] else b :: trimRight cutset s

section Trim
variable {cutset : Bytes}

/-- No byte of the cutset ends a trimmed slice. -/
def NoTrailing (cutset out : Bytes) : Prop := ∀ b, out.getLast? = some b → b ∉ cutset

theorem trimRight_noTrailing (s : Bytes) : NoTrailing cutset (trimRight cutset s) := by
  induction s with
  | nil => intro b hb; cases hb
  | cons a s ih =>
    intro b hb
    unfold trimRight at hb
    split_ifs at hb with h
    · cases hb
    · rw [List.getLast?_cons] at hb
      cases hs : (trimRight cutset s).getLast? with
      | none =>
        rw [hs] at hb
        cases hb
        exact fun ha => h ⟨List.getLast?_eq_none_iff.mp hs, ha⟩
      | some c =>
        rw [hs] at hb
        cases hb
        exact ih c hs

/-- Trimming drops a suffix of cutset bytes. -/
theorem trimRight_append_tail (s : Bytes) :
    ∃ tail, s = trimRight cutset s ++ tail ∧ ∀ b ∈ tail, b ∈ cutset := by
  induction s with
  | nil => exact ⟨[], rfl, fun _ h => nomatch h⟩
  | cons a s ih =>
    obtain ⟨tail, hs, ht⟩ := ih
    unfold trimRight
    split_ifs with h
    · refine ⟨a :: tail, by rw [hs, h.1]; rfl, ?_⟩
      rintro b (_ | ⟨_, hb⟩)
      · exact h.2
      · exact ht b hb
    · exact ⟨tail, by rw [List.cons_append, ← hs], ht⟩

/-- A slice with no trailing cutset byte, followed by cutset bytes, trims to itself. -/
theorem trimRight_append {out tail : Bytes} (ho : NoTrailing cutset out) (ht : ∀ b ∈ tail, b ∈ cutset) :
    trimRight cutset (out ++ tail) = out := by
  induction out with
  | nil =>
    induction tail with
    | nil => rfl
    | cons b tail ih =>
      have hb := ht b (.head _)
      simp only [List.nil_append] at ih ⊢
      rw [trimRight, ih fun c hc => ht c (.tail _ hc), if_pos ⟨rfl, hb⟩]
  | cons a out ih =>
    rw [List.cons_append, trimRight]
    cases out with
    | nil =>
      rw [ih (fun _ h => nomatch h), if_neg fun h => ho a rfl h.2]
    | cons x out =>
      rw [ih fun b hb => ho b hb, if_neg fun h => List.cons_ne_nil _ _ h.1]

/-- The result of TrimRight is the one slice with no trailing cutset byte that the input
extends by cutset bytes. -/
theorem trimRight_eq_iff {s out : Bytes} :
    trimRight cutset s = out ↔ NoTrailing cutset out ∧ ∃ tail, s = out ++ tail ∧ ∀ b ∈ tail, b ∈ cutset := by
  constructor
  · rintro rfl
    exact ⟨trimRight_noTrailing s, trimRight_append_tail s⟩
  · rintro ⟨ho, tail, rfl, ht⟩
    exact trimRight_append ho ht

end Trim

/-! ### file -/

/-- os.ReadFile's error: one that errors.Is matches with os.ErrNotExist, or another. -/
inductive ReadError where
  | notExist
  | other (err : GoError)

/-- file.Provider. -/
structure File where
  baseDir : Bytes
  trimNewline : Bool

/-- Provider.Get over the file system `readFile` (os.ReadFile) and `join` (filepath.Join). -/
def File.get (readFile : Bytes → Except ReadError Bytes) (join : Bytes → Bytes → Bytes) (p : File)
    (key : Bytes) : Outcome :=
  let path := if p.baseDir ≠ [] then join p.baseDir key else key
  match readFile path with
  | .error .notExist => .error (.wrap "file" (some path) errNotFound)
  | .error (.other e) => .error (.wrap "file" (some path) e)
  | .ok data => .ok (if p.trimNewline then trimRight (ascii "\r\n") data else data)

def File.toProvider (readFile : Bytes → Except ReadError Bytes) (join : Bytes → Bytes → Bytes)
    (p : File) : Provider :=
  ⟨p.get readFile join, none⟩

/-! ### env -/

/-- env.Provider. -/
structure Env where
  pfx : Bytes

/-- Provider.Get over the environment `lookupEnv` (os.LookupEnv). -/
def Env.get (lookupEnv : Bytes → Option Bytes) (p : Env) (key : Bytes) : Outcome :=
  let name := p.pfx ++ key
  match lookupEnv name with
  | none => .error (.wrap "env" (some name) errNotFound)
  | some v => .ok v

def Env.toProvider (lookupEnv : Bytes → Option Bytes) (p : Env) : Provider := ⟨p.get lookupEnv, none⟩

/-! ### literal -/

/-- literal.Provider: Go maps with distinct keys; `versions` is nil unless WithVersions
gives it. -/
structure Literal where
  data : List (Bytes × Bytes)
  versions : Option (List (Bytes × List (Bytes × Bytes)))

/-- `literal: %q version %q: %w`, its two verbs as two wraps. -/
def Literal.versionError (key version : Bytes) : GoError :=
  .wrap "literal" (some key) (.wrap "version" (some version) errNotFound)

def Literal.get (p : Literal) (key : Bytes) : Outcome :=
  match p.data.lookup key with
  | none => .error (.wrap "literal" (some key) errNotFound)
  | some v => .ok v

def Literal.getVersion (p : Literal) (key version : Bytes) : Outcome :=
  match p.versions with
  | none => .error (Literal.versionError key version)
  | some vs =>
    match vs.lookup key with
    | none => .error (Literal.versionError key version)
    | some vmap =>
      match vmap.lookup version with
      | none => .error (Literal.versionError key version)
      | some v => .ok v

def Literal.toProvider (p : Literal) : Provider := ⟨p.get, some p.getVersion⟩

/-! ### gcpsm -/

/-- gcpsm.Provider: the project, and the client's AccessSecretVersion by resource name. -/
structure Gcpsm where
  project : Bytes
  accessSecretVersion : Bytes → Outcome

def Gcpsm.resourceName (p : Gcpsm) (key version : Bytes) : Bytes :=
  ascii "projects/" ++ p.project ++ ascii "/secrets/" ++ key ++ ascii "/versions/" ++ version

def Gcpsm.getVersion (p : Gcpsm) (key version : Bytes) : Outcome :=
  let v := if version = ascii "current" then ascii "latest" else version
  match p.accessSecretVersion (p.resourceName key v) with
  | .error e => .error (.wrap "gcpsm: secret" (some key) (.wrap "version" (some version) e))
  | .ok data => .ok data

def Gcpsm.get (p : Gcpsm) (key : Bytes) : Outcome := p.getVersion key (ascii "current")

def Gcpsm.toProvider (p : Gcpsm) : Provider := ⟨p.get, some p.getVersion⟩

/-! ### awsps -/

/-- awsps.Provider: whether SecureString parameters are decrypted, and the client's
GetParameter. -/
structure Awsps where
  decrypt : Bool
  getParameter : Bytes → Bool → Except GoError Bytes

def Awsps.get (p : Awsps) (key : Bytes) : Outcome :=
  match p.getParameter key p.decrypt with
  | .error e => .error (.wrap "awsps: parameter" (some key) e)
  | .ok v => .ok v

def Awsps.toProvider (p : Awsps) : Provider := ⟨p.get, none⟩

/-! ### onepassword -/

/-- onepassword.Provider: the client's GetItem on a "vault/item/field" reference. -/
structure OnePassword where
  getItem : Bytes → Except GoError Bytes

def OnePassword.get (p : OnePassword) (key : Bytes) : Outcome :=
  match p.getItem key with
  | .error e => .error (.wrap "onepassword" (some key) e)
  | .ok v => .ok v

def OnePassword.toProvider (p : OnePassword) : Provider := ⟨p.get, none⟩

/-! ### The file provider's trim -/

/-- With the trim on, Get returns the file's contents without its longest suffix of '\r'
and '\n' bytes. -/
theorem File.get_trim {readFile : Bytes → Except ReadError Bytes} {join : Bytes → Bytes → Bytes}
    {p : File} (ht : p.trimNewline = true) {key data : Bytes}
    (hr : readFile (if p.baseDir ≠ [] then join p.baseDir key else key) = .ok data) :
    p.get readFile join key = .ok (trimRight (ascii "\r\n") data) := by
  simp only [File.get, hr, ht, if_true]

/-- With WithTrimNewline(true), Get returns exactly the file's contents without their
longest suffix of '\r' and '\n' bytes, in any order and number (a lone '\r', several
blank lines), so what it returns never ends in either byte. -/
theorem File.get_trimmed {readFile : Bytes → Except ReadError Bytes} {join : Bytes → Bytes → Bytes}
    {p : File} (ht : p.trimNewline = true) {key data out : Bytes}
    (hr : readFile (if p.baseDir ≠ [] then join p.baseDir key else key) = .ok data) :
    p.get readFile join key = .ok out ↔
      NoTrailing (ascii "\r\n") out ∧ ∃ tail, data = out ++ tail ∧ ∀ b ∈ tail, b ∈ ascii "\r\n" := by
  rw [File.get_trim ht hr, ← trimRight_eq_iff]
  exact ⟨Except.ok.inj, congrArg _⟩

/-- A file that ends in a blank line after a Windows line end. -/
def crlfFile (_ : Bytes) : Except ReadError Bytes := .ok (ascii "s3cret\n\r\n")

theorem File.get_trimmed_crlf :
    (⟨[], true⟩ : File).trimNewline = true ∧
      crlfFile (if (⟨[], true⟩ : File).baseDir ≠ [] then ascii "/run/secrets" else ascii "db") =
        .ok (ascii "s3cret\n\r\n") ∧
      ((⟨[], true⟩ : File).get crlfFile (fun _ _ => ascii "/run/secrets") (ascii "db") = .ok (ascii "s3cret") ↔
        NoTrailing (ascii "\r\n") (ascii "s3cret") ∧ ∃ tail, ascii "s3cret\n\r\n" = ascii "s3cret" ++ tail ∧
          ∀ b ∈ tail, b ∈ ascii "\r\n") :=
  ⟨rfl, rfl, File.get_trimmed rfl rfl⟩

end GoSecrets.Providers
