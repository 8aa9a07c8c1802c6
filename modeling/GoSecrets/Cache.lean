import GoSecrets.Basic

/-! CachedProvider (cache.go): a TTL memo in front of a provider. First calls made one
after another against a provider whose answers depend only on the request; then every
interleaving of the lock-protected steps of concurrent calls and Clear. -/
namespace GoSecrets.Cache

/-- A request to the wrapped provider: `Get(key)` or `GetVersion(key, version)`. -/
inductive Request where
  | get (key : Bytes)
  | getVersion (key version : Bytes)
deriving DecidableEq, Repr

/-- The entry-map key of a request: the key alone, or `key + "\x00" + version`. -/
def Request.cacheKey : Request → Bytes
  | .get key => key
  | .getVersion key version => key ++ 0 :: version

/-- The wrapped provider's own answer to a request. A provider without VersionedProvider
answers GetVersion with the error CachedProvider itself reports. -/
def Request.answer (p : Provider) : Request → Outcome
  | .get key => p.get key
  | .getVersion key version =>
    match p.getVersion with
    | some gv => gv key version
    | none => .error (.versioningNotSupported "" (ascii "cached"))

structure cacheEntry where
  data : Bytes
  expires : Int

structure CachedProvider where
  provider : Provider
  ttl : Int
  entries : Bytes → Option cacheEntry

def NewCachedProvider (p : Provider) (ttl : Int) : CachedProvider := ⟨p, ttl, fun _ => none⟩

/-- What one call reports: its return value, and the wrapped call it made, if any. -/
abbrev Reply := Outcome × Option Outcome

namespace CachedProvider
variable (c : CachedProvider) (now : Int)

/-- `c.get`: a hit when an entry exists and `now` is not after its expiry. -/
def get (key : Bytes) : Option Bytes :=
  match c.entries key with
  | some e => if now > e.expires then none else some e.data
  | none => none

/-- `c.set`: store the data under the key, expiring `ttl` after `now`. -/
def set (key data : Bytes) : CachedProvider :=
  { c with entries := Function.update c.entries key (some ⟨data, now + c.ttl⟩) }

def Clear : CachedProvider := { c with entries := fun _ => none }

/-- The body Get and GetVersion share once the cache key is known: serve a fresh entry,
or call through and store a successful answer; errors are never stored. -/
def through (key : Bytes) (fetch : Outcome) : Reply × CachedProvider :=
  match c.get now key with
  | some data => ((.ok data, none), c)
  | none =>
    match fetch with
    | .error e => ((.error e, some (.error e)), c)
    | .ok data => ((.ok data, some (.ok data)), c.set now key data)

def Get (key : Bytes) : Reply × CachedProvider := c.through now key (c.provider.get key)

def GetVersion (key version : Bytes) : Reply × CachedProvider :=
  match c.provider.getVersion with
  | none => ((.error (.versioningNotSupported "" (ascii "cached")), none), c)
  | some gv => c.through now (key ++ 0 :: version) (gv key version)

def call : Request → Reply × CachedProvider
  | .get key => c.Get now key
  | .getVersion key version => c.GetVersion now key version

@[simp] theorem set_provider (key data : Bytes) : (c.set now key data).provider = c.provider := rfl
@[simp] theorem Clear_provider : c.Clear.provider = c.provider := rfl
@[simp] theorem Clear_entries (key : Bytes) : c.Clear.entries key = none := rfl

theorem get_eq_some {key data : Bytes} (h : c.get now key = some data) :
    ∃ e, c.entries key = some e ∧ e.data = data := by
  unfold get at h
  split at h
  · rename_i e he
    split at h
    · cases h
    · exact ⟨e, he, Option.some_inj.mp h⟩
  · cases h

/-- Each call is the shared body at the request's cache key and the provider's answer. -/
theorem call_eq_through (r : Request) (hv : c.provider.getVersion.isSome) :
    c.call now r = c.through now r.cacheKey (r.answer c.provider) := by
  cases r with
  | get key => rfl
  | getVersion key version =>
    obtain ⟨gv, hgv⟩ := Option.isSome_iff_exists.mp hv
    simp [call, GetVersion, Request.answer, Request.cacheKey, hgv]

end CachedProvider

/-! ### Calls one after another -/

/-- One step of a sequential run at time `now`: a call, or Clear. -/
inductive Call where
  | request (r : Request)
  | clear

open CachedProvider

def step (c : CachedProvider) : Int × Call → Option Reply × CachedProvider
  | (now, .request r) => let x := c.call now r; (some x.1, x.2)
  | (_, .clear) => (none, c.Clear)

def run (c : CachedProvider) : List (Int × Call) → List (Option Reply) × CachedProvider
  | [] => ([], c)
  | x :: xs => let y := step c x; let z := run y.2 xs; (y.1 :: z.1, z.2)

/-- The requests of a run. -/
def requests (calls : List (Int × Call)) : List Request :=
  calls.filterMap fun x => match x.2 with
    | .request r => some r
    | .clear => none

/-- No two different requests in the list share a cache key. -/
def Distinct (rs : List Request) : Prop :=
  ∀ r ∈ rs, ∀ r' ∈ rs, r.cacheKey = r'.cacheKey → r = r'

/-- Every entry holds the wrapped provider's answer to a request of `rs` with its key. -/
def Sound (p : Provider) (rs : List Request) (c : CachedProvider) : Prop :=
  ∀ key e, c.entries key = some e → ∃ r ∈ rs, r.cacheKey = key ∧ r.answer p = .ok e.data

section Sequential
variable {p : Provider} {rs : List Request} {c : CachedProvider} {now : Int}

theorem sound_empty (ttl : Int) : Sound p rs (NewCachedProvider p ttl) := by
  intro key e h
  cases h

theorem sound_set {r : Request} {data : Bytes} (hs : Sound p rs c) (hr : r ∈ rs)
    (ha : r.answer p = .ok data) : Sound p rs (c.set now r.cacheKey data) := by
  intro key e he
  by_cases hk : key = r.cacheKey
  · subst hk
    simp only [CachedProvider.set, Function.update_same, Option.some.injEq] at he
    exact ⟨r, hr, rfl, by rw [ha, ← he]⟩
  · exact hs key e (by simpa [CachedProvider.set, Function.update_noteq hk] using he)

/-- A hit serves the answer to the request itself, since no other request shares its key. -/
theorem hit_answer {r : Request} {data : Bytes} (hs : Sound p rs c) (hd : Distinct rs)
    (hr : r ∈ rs) (h : c.get now r.cacheKey = some data) : r.answer p = .ok data := by
  obtain ⟨e, he, rfl⟩ := c.get_eq_some now h
  obtain ⟨r', hr', hk, ha⟩ := hs _ e he
  rwa [hd r' hr' r hr hk] at ha

/-- Step lemma: a call answers as the wrapped provider does, and keeps the entries sound. -/
theorem call_spec (now : Int) {r : Request} (hs : Sound p rs c) (hd : Distinct rs) (hr : r ∈ rs)
    (hp : c.provider = p) (hv : p.getVersion.isSome) :
    (c.call now r).1.1 = r.answer p ∧
    (∀ e, (c.call now r).1.1 = .error e → (c.call now r).1.2 = some (.error e)) ∧
    Sound p rs (c.call now r).2 ∧ (c.call now r).2.provider = p := by
  rw [c.call_eq_through now r (hp ▸ hv), hp]
  unfold through
  split
  · rename_i data h
    exact ⟨(hit_answer hs hd hr h).symm, by simp, hs, hp⟩
  · split
    · rename_i e he
      exact ⟨he.symm, by simp, hs, hp⟩
    · rename_i data he
      exact ⟨he.symm, by simp, sound_set hs hr he, by simp [hp]⟩

/-- Run lemma: the invariant and the answers over a whole sequence of calls. -/
theorem run_spec (calls : List (Int × Call)) (hs : Sound p rs c) (hd : Distinct rs)
    (hr : requests calls ⊆ rs) (hp : c.provider = p) (hv : p.getVersion.isSome) :
    (run c calls).1.map (Option.map Prod.fst) =
      calls.map (fun x => match x.2 with
        | .request r => some (r.answer p)
        | .clear => none) ∧
    ∀ y ∈ (run c calls).1, ∀ out ∈ y, ∀ e, out.1 = .error e → out.2 = some (.error e) := by
  induction calls generalizing c with
  | nil => simp [run]
  | cons x xs ih =>
    obtain ⟨now, call⟩ := x
    cases call with
    | request r =>
      have hr : r :: requests xs ⊆ rs := hr
      obtain ⟨h1, h2, h3, h4⟩ := call_spec now hs hd (hr (.head _)) hp hv
      obtain ⟨ih1, ih2⟩ := ih h3 (fun q hq => hr (.tail _ hq)) h4
      refine ⟨by simp [run, step, h1, ih1], ?_⟩
      simp only [run, step, List.mem_cons, forall_eq_or_imp]
      exact ⟨fun out hout e he => by cases hout; exact h2 e he, ih2⟩
    | clear =>
      obtain ⟨ih1, ih2⟩ := ih (show Sound p rs c.Clear from fun key e h => by cases h)
        (hr : requests xs ⊆ rs) (by simp [hp])
      exact ⟨by simp [run, step, ih1], by simpa [run, step] using ih2⟩

end Sequential

/-- A provider whose `Get` finds nothing and whose `GetVersion` has a value. -/
def nulKeyProvider : Provider := ⟨fun _ => .error (.notFound ""), some fun _ _ => .ok (ascii "previous")⟩

/-- Calls in any order, any TTL, any times: every call returns the wrapped provider's
answer to its own request, and every error comes from a wrapped call made during that
call, provided no two different requests of the sequence share a cache key. -/
theorem cached_answers_eq_wrapped (p : Provider) (hv : p.getVersion.isSome) (ttl : Int)
    (calls : List (Int × Call)) (hd : Distinct (requests calls)) :
    (run (NewCachedProvider p ttl) calls).1.map (Option.map Prod.fst) =
      calls.map (fun x => match x.2 with
        | .request r => some (r.answer p)
        | .clear => none) ∧
    ∀ y ∈ (run (NewCachedProvider p ttl) calls).1, ∀ out ∈ y, ∀ e,
      out.1 = .error e → out.2 = some (.error e) :=
  run_spec calls (sound_empty ttl) hd (List.Subset.refl _) rfl hv

/-- Keys without a NUL byte never collide in the entry map. -/
theorem append_nul_inj {k k' v v' : Bytes} (hk : 0 ∉ k) (hk' : 0 ∉ k')
    (h : k ++ 0 :: v = k' ++ 0 :: v') : k = k' ∧ v = v' := by
  induction k generalizing k' with
  | nil =>
    cases k' with
    | nil => simpa using h
    | cons y ys => simp only [List.nil_append, List.cons_append, List.cons.injEq] at h; simp [← h.1] at hk'
  | cons x xs ih =>
    cases k' with
    | nil => simp only [List.nil_append, List.cons_append, List.cons.injEq] at h; simp [h.1] at hk
    | cons y ys =>
      simp only [List.cons_append, List.cons.injEq] at h
      obtain ⟨rfl, h⟩ := h
      simp only [List.mem_cons, not_or] at hk hk'
      simpa using ih hk.2 hk'.2 h

/-- The key of a request, which the NUL separator is meant to delimit. -/
def Request.key : Request → Bytes
  | .get key => key
  | .getVersion key _ => key

/-- Requests whose keys hold no NUL byte never share a cache key. -/
theorem distinct_of_nul_free (rs : List Request) (h : ∀ r ∈ rs, (0 : UInt8) ∉ r.key) :
    Distinct rs := by
  intro r hr r' hr' hk
  have h1 := h r hr
  have h2 := h r' hr'
  cases r <;> cases r' <;> simp only [Request.cacheKey, Request.key] at hk h1 h2
  · rw [hk]
  · exact absurd (hk ▸ List.mem_append_right _ (List.mem_cons_self _ _)) h1
  · exact absurd (hk ▸ List.mem_append_right _ (List.mem_cons_self _ _)) h2
  · obtain ⟨rfl, rfl⟩ := append_nul_inj h1 h2 hk
    rfl

theorem cached_answers_eq_wrapped_versioned :
    nulKeyProvider.getVersion.isSome ∧
    Distinct (requests [(0, .request (.getVersion (ascii "k") (ascii "prev"))),
      (60, .request (.get (ascii "k"))), (61, .clear)]) ∧
    (run (NewCachedProvider nulKeyProvider 60)
      [(0, .request (.getVersion (ascii "k") (ascii "prev"))),
       (60, .request (.get (ascii "k"))), (61, .clear)]).1.map (Option.map Prod.fst) =
      [some (.ok (ascii "previous")), some (.error (.notFound "")), none] :=
  have hd : Distinct (requests [(0, .request (.getVersion (ascii "k") (ascii "prev"))),
      (60, .request (.get (ascii "k"))), (61, .clear)]) := distinct_of_nul_free _ (by decide)
  ⟨rfl, hd, (cached_answers_eq_wrapped nulKeyProvider rfl 60 _ hd).1⟩

/-- `Get("k\x00prev")` after `GetVersion("k", "prev")` is served the versioned entry. -/
theorem cached_nul_key_collision :
    (run (NewCachedProvider nulKeyProvider 60)
      [(0, .request (.getVersion (ascii "k") (ascii "prev"))),
       (0, .request (.get (ascii "k" ++ 0 :: ascii "prev")))]).1.map (Option.map Prod.fst) ≠
    [(0, Call.request (.getVersion (ascii "k") (ascii "prev"))),
     (0, Call.request (.get (ascii "k" ++ 0 :: ascii "prev")))].map (fun x => match x.2 with
        | .request r => some (r.answer nulKeyProvider)
        | .clear => none) := by
  decide

/-! ### Concurrent calls

Each call runs as a thread through CachedProvider's lock-protected steps: the read of
`c.get` (read lock), the wrapped call (no lock), the write of `c.set` (write lock). Clear
is one step under the write lock. A schedule is any interleaving of these steps. Ghost
state stamps every entry with the steps at which it was fetched and stored, and logs
every value a call returned from the cache. -/

/-- Where a call stands between its lock-protected steps. -/
inductive Phase where
  | idle
  | reading (r : Request)
  | calling (r : Request)
  | storing (r : Request) (data : Bytes) (fetchedAt : Nat)

/-- A scheduler choice: start a call on an idle thread, run a thread's next step, run
Clear, or let wall-clock time pass. -/
inductive Act where
  | begin (tid : Nat) (r : Request)
  | step (tid : Nat)
  | clear
  | tick (dt : Nat)

structure Stamp where
  fetchedAt : Nat
  storedAt : Nat
deriving DecidableEq, Repr

/-- A value a call returned from the cache: the step it did so, and its entry's stamp. -/
structure Served where
  servedAt : Nat
  data : Bytes
  stamp : Stamp
deriving DecidableEq, Repr

structure Sys where
  cache : CachedProvider
  now : Int
  clock : Nat
  threads : Nat → Phase
  stamps : Bytes → Stamp
  clears : List Nat
  served : List Served

/-- GetVersion on a provider without VersionedProvider fails before reading the cache. -/
def Request.supported (p : Provider) : Request → Bool
  | .get _ => true
  | .getVersion _ _ => p.getVersion.isSome

/-- A thread's next step from its phase. `world t` is the wrapped provider as it answers
at step `t`: its values may change between any two steps. -/
def Sys.advance (world : Nat → Provider) (s : Sys) (tid : Nat) : Phase → Sys
  | .idle => s
  | .reading r =>
    if r.supported (world s.clock) then
      match s.cache.get s.now r.cacheKey with
      | some data =>
        { s with threads := Function.update s.threads tid .idle,
                 served := s.served ++ [⟨s.clock, data, s.stamps r.cacheKey⟩] }
      | none => { s with threads := Function.update s.threads tid (.calling r) }
    else { s with threads := Function.update s.threads tid .idle }
  | .calling r =>
    match r.answer (world s.clock) with
    | .error _ => { s with threads := Function.update s.threads tid .idle }
    | .ok data => { s with threads := Function.update s.threads tid (.storing r data s.clock) }
  | .storing r data f =>
    { s with cache := s.cache.set s.now r.cacheKey data,
             stamps := Function.update s.stamps r.cacheKey ⟨f, s.clock⟩,
             threads := Function.update s.threads tid .idle }

/-- The effect of one scheduler choice. -/
def Sys.act (world : Nat → Provider) (s : Sys) : Act → Sys
  | .begin tid r =>
    match s.threads tid with
    | .idle => { s with threads := Function.update s.threads tid (.reading r) }
    | _ => s
  | .step tid => s.advance world tid (s.threads tid)
  | .clear => { s with cache := s.cache.Clear, clears := s.clock :: s.clears }
  | .tick dt => { s with now := s.now + dt }

def Sys.next (world : Nat → Provider) (s : Sys) (a : Act) : Sys :=
  { s.act world a with clock := s.clock + 1 }

def Sys.run (world : Nat → Provider) : Sys → List Act → Sys
  | s, [] => s
  | s, a :: as => (s.next world a).run world as

/-- A fresh CachedProvider with no call in progress, before step 0. -/
def Sys.init (c : CachedProvider) : Sys := ⟨c, 0, 0, fun _ => .idle, fun _ => ⟨0, 0⟩, [], []⟩

/-- After a Clear, every entry and every value served from the cache was stored after it;
and every stored value was fetched before it was stored. -/
structure Sys.Inv (s : Sys) : Prop where
  entry_stored : ∀ key e, s.cache.entries key = some e → ∀ i ∈ s.clears, i < (s.stamps key).storedAt
  entry_fetched : ∀ key e, s.cache.entries key = some e →
    (s.stamps key).fetchedAt < (s.stamps key).storedAt
  storing_past : ∀ tid r d f, s.threads tid = .storing r d f → f < s.clock
  clears_past : ∀ i ∈ s.clears, i < s.clock
  served_past : ∀ sv ∈ s.served, sv.servedAt < s.clock
  served_stored : ∀ sv ∈ s.served, ∀ i ∈ s.clears, i < sv.servedAt → i < sv.stamp.storedAt
  served_fetched : ∀ sv ∈ s.served, sv.stamp.fetchedAt < sv.stamp.storedAt

section Concurrent
variable {world : Nat → Provider} {s : Sys}

theorem Sys.init_inv (c : CachedProvider) (hc : ∀ key, c.entries key = none) :
    (Sys.init c).Inv where
  entry_stored key e h := by simp [Sys.init, hc] at h
  entry_fetched key e h := by simp [Sys.init, hc] at h
  storing_past tid r d f h := by cases h
  clears_past i h := by cases h
  served_past sv h := by cases h
  served_stored sv h := by cases h
  served_fetched sv h := by cases h

theorem Sys.Inv.bump (h : s.Inv) (n : Int) : ({ s with now := n, clock := s.clock + 1 } : Sys).Inv where
  entry_stored := h.entry_stored
  entry_fetched := h.entry_fetched
  storing_past tid r d f ht := Nat.lt_succ_of_lt (h.storing_past tid r d f ht)
  clears_past i hi := Nat.lt_succ_of_lt (h.clears_past i hi)
  served_past sv hsv := Nat.lt_succ_of_lt (h.served_past sv hsv)
  served_stored := h.served_stored
  served_fetched := h.served_fetched

/-- Moving one thread to a phase fetched no later than now keeps the invariant. -/
theorem Sys.Inv.setThread (h : s.Inv) (tid : Nat) (ph : Phase)
    (hph : ∀ r d f, ph = .storing r d f → f ≤ s.clock) :
    ({ s with threads := Function.update s.threads tid ph, clock := s.clock + 1 } : Sys).Inv where
  entry_stored := h.entry_stored
  entry_fetched := h.entry_fetched
  storing_past tid' r d f ht := by
    dsimp only at ht ⊢
    by_cases e : tid' = tid
    · subst e
      rw [Function.update_same] at ht
      exact Nat.lt_succ_of_le (hph r d f ht)
    · rw [Function.update_noteq e] at ht
      exact Nat.lt_succ_of_lt (h.storing_past _ _ _ _ ht)
  clears_past i hi := Nat.lt_succ_of_lt (h.clears_past i hi)
  served_past sv hsv := Nat.lt_succ_of_lt (h.served_past sv hsv)
  served_stored := h.served_stored
  served_fetched := h.served_fetched

/-- A hit logs an entry that, by the invariant, was stored after every Clear so far. -/
theorem Sys.Inv.serve (h : s.Inv) (tid : Nat) {key data : Bytes}
    (hget : s.cache.get s.now key = some data) :
    ({ s with threads := Function.update s.threads tid .idle,
              served := s.served ++ [⟨s.clock, data, s.stamps key⟩],
              clock := s.clock + 1 } : Sys).Inv := by
  obtain ⟨e, he, -⟩ := s.cache.get_eq_some s.now hget
  have h' := h.setThread tid .idle (fun _ _ _ h => nomatch h)
  refine { h' with served_past := ?_, served_stored := ?_, served_fetched := ?_ } <;>
    simp only [List.mem_append, List.mem_singleton] <;> rintro sv (hsv | rfl)
  · exact h'.served_past sv hsv
  · exact Nat.lt_succ_self _
  · exact h.served_stored sv hsv
  · exact fun i hi _ => h.entry_stored key e he i hi
  · exact h.served_fetched sv hsv
  · exact h.entry_fetched key e he

/-- A store stamps its entry with the current step, after every Clear so far. -/
theorem Sys.Inv.store (h : s.Inv) {tid : Nat} {r : Request} {data : Bytes} {f : Nat}
    (ht : s.threads tid = .storing r data f) :
    ({ s with cache := s.cache.set s.now r.cacheKey data,
              stamps := Function.update s.stamps r.cacheKey ⟨f, s.clock⟩,
              threads := Function.update s.threads tid .idle,
              clock := s.clock + 1 } : Sys).Inv := by
  have h' := h.setThread tid .idle (fun _ _ _ h => nomatch h)
  refine { h' with entry_stored := ?_, entry_fetched := ?_ } <;> intro key e he <;>
    by_cases hk : key = r.cacheKey
  · subst hk
    simpa using h.clears_past
  · simp only [CachedProvider.set, Function.update_noteq hk] at he ⊢
    exact h.entry_stored key e he
  · subst hk
    simpa using h.storing_past tid r data f ht
  · simp only [CachedProvider.set, Function.update_noteq hk] at he ⊢
    exact h.entry_fetched key e he

theorem Sys.Inv.clear (h : s.Inv) :
    ({ s with cache := s.cache.Clear, clears := s.clock :: s.clears,
              clock := s.clock + 1 } : Sys).Inv where
  entry_stored key e he := by simp at he
  entry_fetched key e he := by simp at he
  storing_past tid r d f ht := Nat.lt_succ_of_lt (h.storing_past tid r d f ht)
  clears_past i hi := by
    rcases List.mem_cons.mp hi with rfl | hi
    · exact Nat.lt_succ_self _
    · exact Nat.lt_succ_of_lt (h.clears_past i hi)
  served_past sv hsv := Nat.lt_succ_of_lt (h.served_past sv hsv)
  served_stored sv hsv i hi hlt := by
    rcases List.mem_cons.mp hi with rfl | hi
    · exact absurd (h.served_past sv hsv) (Nat.not_lt.mpr (Nat.le_of_lt hlt))
    · exact h.served_stored sv hsv i hi hlt
  served_fetched := h.served_fetched

theorem Sys.Inv.advance (h : s.Inv) (tid : Nat) (ph : Phase) (ht : s.threads tid = ph) :
    ({ s.advance world tid ph with clock := s.clock + 1 } : Sys).Inv := by
  cases ph with
  | idle => exact h.bump s.now
  | reading r =>
    simp only [Sys.advance]
    split
    · split
      · rename_i data hget
        exact h.serve tid hget
      · exact h.setThread tid _ (fun _ _ _ h => nomatch h)
    · exact h.setThread tid _ (fun _ _ _ h => nomatch h)
  | calling r =>
    simp only [Sys.advance]
    split
    · exact h.setThread tid _ (fun _ _ _ h => nomatch h)
    · exact h.setThread tid _ (fun _ _ _ h => by cases h; exact Nat.le_refl _)
  | storing r data f => exact h.store ht

/-- Step lemma: every scheduler choice keeps the invariant. -/
theorem Sys.Inv.next (h : s.Inv) (a : Act) : (s.next world a).Inv := by
  cases a with
  | begin tid r =>
    simp only [Sys.next, Sys.act]
    split
    · exact h.setThread tid _ (fun _ _ _ h => nomatch h)
    · exact h.bump s.now
  | step tid => exact h.advance tid _ rfl
  | clear => exact h.clear
  | tick dt => exact h.bump _

/-- Run lemma: the invariant holds after any schedule. -/
theorem Sys.Inv.run (h : s.Inv) (world : Nat → Provider) (acts : List Act) :
    (s.run world acts).Inv := by
  induction acts generalizing s with
  | nil => exact h
  | cons a as ih => exact ih (h.next a)

@[simp] theorem Sys.advance_clears (tid : Nat) (ph : Phase) :
    (s.advance world tid ph).clears = s.clears := by
  cases ph <;> simp only [Sys.advance] <;> (repeat' split) <;> rfl

theorem Sys.clears_subset_next (a : Act) : s.clears ⊆ (s.next world a).clears := by
  cases a with
  | begin tid r => simp only [Sys.next, Sys.act]; split <;> exact List.Subset.refl _
  | step tid => simp [Sys.next, Sys.act]
  | clear => exact List.subset_cons_self _ _
  | tick dt => exact List.Subset.refl _

theorem Sys.clears_subset_run (acts : List Act) : s.clears ⊆ (s.run world acts).clears := by
  induction acts generalizing s with
  | nil => exact List.Subset.refl _
  | cons a as ih => exact List.Subset.trans (Sys.clears_subset_next a) ih

/-- The Clear at schedule position `i` is logged at step `clock + i`. -/
theorem Sys.mem_clears_run (s : Sys) (acts : List Act) (i : Nat) (hi : acts.get? i = some .clear) :
    s.clock + i ∈ (s.run world acts).clears := by
  induction acts generalizing s i with
  | nil => cases hi
  | cons a as ih =>
    cases i with
    | zero =>
      cases hi
      exact Sys.clears_subset_run as (List.mem_cons_self _ _)
    | succ k =>
      have := ih (s.next world a) k hi
      simpa [Sys.next, Nat.add_assoc, Nat.add_comm 1 k] using this

end Concurrent

/-- Any interleaving of calls and Clears, with the provider's values changing at every
step: a value returned from the cache after the Clear at schedule position `i` was stored
after that Clear, by a call that fetched it before storing it. -/
theorem served_after_clear_stored (world : Nat → Provider) (p : Provider) (ttl : Int)
    (acts : List Act) (i : Nat) (hi : acts.get? i = some .clear) :
    ∀ sv ∈ ((Sys.init (NewCachedProvider p ttl)).run world acts).served, i < sv.servedAt →
      i < sv.stamp.storedAt ∧ sv.stamp.fetchedAt < sv.stamp.storedAt := by
  have h := (Sys.init_inv (NewCachedProvider p ttl) (fun _ => rfl)).run world acts
  have hc : i ∈ ((Sys.init (NewCachedProvider p ttl)).run world acts).clears := by
    simpa [Sys.init] using Sys.mem_clears_run (Sys.init (NewCachedProvider p ttl)) acts i hi
  exact fun sv hsv hlt => ⟨h.served_stored sv hsv i hc hlt, h.served_fetched sv hsv⟩

/-- A provider that always answers `v`. -/
def constProvider : Provider := ⟨fun _ => .ok (ascii "v"), none⟩

/-- A call misses and fetches, Clear runs, the call stores, and a later call is served
the value fetched before the Clear. -/
def lateStoreSchedule : List Act :=
  [.begin 0 (.get (ascii "k")), .step 0, .step 0, .clear, .step 0,
   .begin 1 (.get (ascii "k")), .step 1]

theorem late_store_served :
    ((Sys.init (NewCachedProvider constProvider 60)).run (fun _ => constProvider)
      lateStoreSchedule).served = [⟨6, ascii "v", ⟨2, 4⟩⟩] := by
  decide

theorem clear_refilled_by_inflight_fetch :
    ¬ ∀ i, lateStoreSchedule.get? i = some .clear →
      ∀ sv ∈ ((Sys.init (NewCachedProvider constProvider 60)).run (fun _ => constProvider)
        lateStoreSchedule).served, i < sv.servedAt → i < sv.stamp.fetchedAt := by
  intro h
  have := h 3 rfl ⟨6, ascii "v", ⟨2, 4⟩⟩ (by rw [late_store_served]; exact List.mem_singleton_self _)
    (by decide)
  exact absurd this (by decide)

theorem served_after_clear_stored_late_store :
    lateStoreSchedule.get? 3 = some .clear ∧ 3 < 4 ∧ 2 < 4 :=
  ⟨rfl, served_after_clear_stored (fun _ => constProvider) constProvider 60 lateStoreSchedule 3 rfl
    ⟨6, ascii "v", ⟨2, 4⟩⟩ (by rw [late_store_served]; exact List.mem_singleton_self _)
    (by decide)⟩

/-! ### Where a served value comes from -/

section Attribution
variable {world : Nat → Provider} {s : Sys}

/-- Every entry holds an answer the wrapped provider gave, at an earlier step, to a request
with the entry's cache key; so does every call about to store. -/
structure Sys.Sourced (world : Nat → Provider) (s : Sys) : Prop where
  entry : ∀ key e, s.cache.entries key = some e → (s.stamps key).fetchedAt < s.clock ∧
    ∃ r : Request, r.cacheKey = key ∧ r.answer (world (s.stamps key).fetchedAt) = .ok e.data
  storing : ∀ tid r d f, s.threads tid = .storing r d f → f < s.clock ∧ r.answer (world f) = .ok d

theorem Sys.Sourced.init (c : CachedProvider) (hc : ∀ key, c.entries key = none) :
    (Sys.init c).Sourced world where
  entry key e h := by simp [Sys.init, hc] at h
  storing tid r d f h := by cases h

/-- A step that keeps the entries and the stamps, and whose pending stores hold answers
fetched no later than now. -/
theorem Sys.Sourced.frame (h : s.Sourced world) {s' : Sys} (he : s'.cache.entries = s.cache.entries)
    (hs : s'.stamps = s.stamps) (hc : s'.clock = s.clock + 1)
    (ht : ∀ tid r d f, s'.threads tid = .storing r d f → f ≤ s.clock ∧ r.answer (world f) = .ok d) :
    s'.Sourced world where
  entry key e hk := by
    obtain ⟨hf, hr⟩ := h.entry key e (he ▸ hk)
    exact ⟨hs ▸ hc ▸ Nat.lt_succ_of_lt hf, hs ▸ hr⟩
  storing tid r d f ht' := by
    obtain ⟨hf, hr⟩ := ht tid r d f ht'
    exact ⟨hc ▸ Nat.lt_succ_of_le hf, hr⟩

theorem Sys.Sourced.storing_update (h : s.Sourced world) (tid : Nat) (ph : Phase)
    (hph : ∀ r d f, ph = .storing r d f → f ≤ s.clock ∧ r.answer (world f) = .ok d) :
    ∀ tid' r d f, Function.update s.threads tid ph tid' = .storing r d f →
      f ≤ s.clock ∧ r.answer (world f) = .ok d := by
  intro tid' r d f ht
  by_cases e : tid' = tid
  · subst e
    exact hph r d f (by rwa [Function.update_same] at ht)
  · obtain ⟨hf, hr⟩ := h.storing tid' r d f (by rwa [Function.update_noteq e] at ht)
    exact ⟨Nat.le_of_lt hf, hr⟩

/-- A step that keeps the entries, the stamps and the threads. -/
theorem Sys.Sourced.bump (h : s.Sourced world) {s' : Sys} (he : s'.cache.entries = s.cache.entries)
    (hs : s'.stamps = s.stamps) (hc : s'.clock = s.clock + 1) (ht : s'.threads = s.threads) :
    s'.Sourced world :=
  h.frame he hs hc fun tid r d f ht' =>
    let ⟨hf, hr⟩ := h.storing tid r d f (ht ▸ ht')
    ⟨Nat.le_of_lt hf, hr⟩

/-- A step that moves one thread to a phase whose pending store, if any, holds an answer
fetched no later than now. -/
theorem Sys.Sourced.move (h : s.Sourced world) {s' : Sys} (tid : Nat) (ph : Phase)
    (he : s'.cache.entries = s.cache.entries) (hs : s'.stamps = s.stamps)
    (hc : s'.clock = s.clock + 1) (ht : s'.threads = Function.update s.threads tid ph)
    (hph : ∀ r d f, ph = .storing r d f → f ≤ s.clock ∧ r.answer (world f) = .ok d) :
    s'.Sourced world :=
  h.frame he hs hc fun tid' r d f ht' => h.storing_update tid ph hph tid' r d f (ht ▸ ht')

/-- A store puts the storing call's answer under its request's cache key, stamped with the
step it was fetched at. -/
theorem Sys.Sourced.store (h : s.Sourced world) {tid : Nat} {r : Request} {data : Bytes} {f : Nat}
    (ht : s.threads tid = .storing r data f) :
    ({ s with cache := s.cache.set s.now r.cacheKey data,
              stamps := Function.update s.stamps r.cacheKey ⟨f, s.clock⟩,
              threads := Function.update s.threads tid .idle,
              clock := s.clock + 1 } : Sys).Sourced world where
  entry key e he := by
    dsimp only at he ⊢
    by_cases hk : key = r.cacheKey
    · subst hk
      simp only [CachedProvider.set, Function.update_same, Option.some.injEq] at he ⊢
      subst he
      obtain ⟨hf, hr⟩ := h.storing tid r data f ht
      exact ⟨Nat.lt_succ_of_lt hf, r, rfl, hr⟩
    · simp only [CachedProvider.set, Function.update_noteq hk] at he ⊢
      obtain ⟨hf, hr⟩ := h.entry key e he
      exact ⟨Nat.lt_succ_of_lt hf, hr⟩
  storing tid' r' d f' ht' :=
    let ⟨hf, hr⟩ := h.storing_update tid .idle (fun _ _ _ h => nomatch h) tid' r' d f' ht'
    ⟨Nat.lt_succ_of_le hf, hr⟩

theorem Sys.Sourced.clear (h : s.Sourced world) :
    ({ s with cache := s.cache.Clear, clears := s.clock :: s.clears,
              clock := s.clock + 1 } : Sys).Sourced world where
  entry key e he := by simp at he
  storing tid r d f ht :=
    let ⟨hf, hr⟩ := h.storing tid r d f ht
    ⟨Nat.lt_succ_of_lt hf, hr⟩

/-- Step lemma: every scheduler choice keeps the invariant. -/
theorem Sys.Sourced.next (h : s.Sourced world) (a : Act) : (s.next world a).Sourced world := by
  cases a with
  | begin tid r =>
    simp only [Sys.next, Sys.act]
    split
    · exact h.move tid _ rfl rfl rfl rfl (fun _ _ _ h => nomatch h)
    · exact h.bump rfl rfl rfl rfl
  | step tid =>
    simp only [Sys.next, Sys.act]
    cases ht : s.threads tid with
    | idle => exact h.bump rfl rfl rfl rfl
    | reading r =>
      simp only [Sys.advance]
      split
      · split
        · exact h.move tid _ rfl rfl rfl rfl (fun _ _ _ h => nomatch h)
        · exact h.move tid _ rfl rfl rfl rfl (fun _ _ _ h => nomatch h)
      · exact h.move tid _ rfl rfl rfl rfl (fun _ _ _ h => nomatch h)
    | calling r =>
      simp only [Sys.advance]
      split
      · exact h.move tid _ rfl rfl rfl rfl (fun _ _ _ h => nomatch h)
      · rename_i data hd
        exact h.move tid _ rfl rfl rfl rfl (fun _ _ _ h => by cases h; exact ⟨Nat.le_refl _, hd⟩)
    | storing r data f => exact h.store ht
  | clear => exact h.clear
  | tick dt => exact h.bump rfl rfl rfl rfl

/-- Run lemma: the invariant holds after any schedule. -/
theorem Sys.Sourced.run (h : s.Sourced world) (acts : List Act) : (s.run world acts).Sourced world := by
  induction acts generalizing s with
  | nil => exact h
  | cons a as ih => exact ih (h.next a)

/-- The value a reading thread's step logs as served is its entry's data, with its stamp. -/
theorem Sys.served_step {tid : Nat} {r : Request} {sv : Served} (hr : s.threads tid = .reading r)
    (hsv : (s.next world (.step tid)).served = s.served ++ [sv]) :
    ∃ data, s.cache.get s.now r.cacheKey = some data ∧ sv = ⟨s.clock, data, s.stamps r.cacheKey⟩ := by
  have hne : s.served ≠ s.served ++ [sv] := fun h => by simpa using congrArg List.length h
  simp only [Sys.next, Sys.act, hr, Sys.advance] at hsv
  split at hsv
  · split at hsv
    · rename_i data hget
      dsimp only at hsv
      exact ⟨data, hget, List.singleton_inj.mp (List.append_cancel_left hsv).symm⟩
    · exact absurd hsv hne
  · exact absurd hsv hne

end Attribution

/-- Any interleaving of calls and Clears, with the provider's values changing at every
step: a value a call is served from the cache is an answer the wrapped provider gave, at
an earlier step, to a request with the call's cache key. -/
theorem served_value_from_provider (world : Nat → Provider) (p : Provider) (ttl : Int)
    (acts : List Act) (tid : Nat) (r : Request) (sv : Served)
    (hr : ((Sys.init (NewCachedProvider p ttl)).run world acts).threads tid = .reading r)
    (hsv : (((Sys.init (NewCachedProvider p ttl)).run world acts).next world (.step tid)).served =
      ((Sys.init (NewCachedProvider p ttl)).run world acts).served ++ [sv]) :
    sv.stamp.fetchedAt < sv.servedAt ∧
      ∃ r' : Request, r'.cacheKey = r.cacheKey ∧ r'.answer (world sv.stamp.fetchedAt) = .ok sv.data := by
  have h : ((Sys.init (NewCachedProvider p ttl)).run world acts).Sourced world :=
    (Sys.Sourced.init _ (fun _ => rfl)).run acts
  obtain ⟨data, hget, rfl⟩ := Sys.served_step hr hsv
  obtain ⟨e, he, rfl⟩ := CachedProvider.get_eq_some _ _ hget
  exact h.entry _ e he

theorem served_value_from_provider_late_store :
    2 < 6 ∧ ∃ r' : Request, r'.cacheKey = ascii "k" ∧ r'.answer constProvider = .ok (ascii "v") :=
  served_value_from_provider (fun _ => constProvider) constProvider 60
    [.begin 0 (.get (ascii "k")), .step 0, .step 0, .clear, .step 0, .begin 1 (.get (ascii "k"))]
    1 (.get (ascii "k")) ⟨6, ascii "v", ⟨2, 4⟩⟩ rfl (by decide)

end GoSecrets.Cache
