import GoSecrets.Watch

/-! The Watcher's RWMutex (watcher.go): goroutines that read the watched record between
RLock and RUnlock, interleaved in any order with pollLoop, whose poll copies the changed
fields one Set call at a time between Lock and Unlock. -/
namespace GoSecrets.WatchLock

/-- A goroutine that reads the watched record: outside RLock, or in its read section with
the places it has read so far and what it found there. -/
inductive Reader where
  | idle
  | reading (reads : List (Path × Option Value))

def Reader.isIdle : Reader → Bool
  | .idle => true
  | .reading _ => false

/-- A poll cycle that found changes, from its call of Lock to its Unlock: the shadow
record, the Set calls of the copy loop still to make (a live field and the shadow field it
is set from), poll's new snapshot, the events to send after Unlock, and the cycle's
environment. -/
structure Cycle where
  tmp : Value
  copies : List (FieldInfo × FieldInfo)
  snap : List FieldSnapshot
  events : List ChangeEvent
  tick : Tick

/-- pollLoop's goroutine: between polls, waiting in Lock for the readers to leave,
holding the lock, or returned. -/
inductive Poller where
  | idle
  | locking (c : Cycle)
  | writing (c : Cycle)
  | exited

/-- The watched record, pollLoop's snapshot, the Changes channel, the goroutines, and the
ticks of the polls that have ended. -/
structure St where
  live : Value
  snapshot : List FieldSnapshot
  queue : List ChangeEvent
  poller : Poller
  readers : List Reader
  done : List Tick

/-- A step of one goroutine: reader `i` calls RLock, reads the field at `p`, or calls
RUnlock; the ticker fires; poll's Lock returns; one Set call; Unlock and the sends;
pollLoop's select takes w.stop or ctx.Done() and the loop returns. -/
inductive Ev where
  | rlock (i : Nat)
  | read (i : Nat) (p : Path)
  | runlock (i : Nat)
  | tick (k : Tick)
  | lock
  | set
  | unlock
  | exit

/-- One Set call of poll's copy loop, as copyFields makes it. -/
def setCopy (tmp r : Value) (c : FieldInfo × FieldInfo) : Value :=
  r.set c.1.path ((tmp.get c.2.path).getD c.1.type.zero)

theorem copyFields_eq_foldl (tmp : Value) : ∀ (ds ss : List FieldInfo) (dst : Value),
    copyFields tmp ds ss dst = (ds.zip ss).foldl (setCopy tmp) dst
  | _ :: ds, _ :: ss, _ => copyFields_eq_foldl tmp ds ss _
  | [], _, _ => rfl
  | _ :: _, [], _ => rfl

def St.setReader (s : St) (i : Nat) (r : Reader) : St := { s with readers := s.readers.set i r }

/-- A Set call of the copy loop, `ds` the calls after it. -/
def St.setField (s : St) (c : Cycle) (d : FieldInfo × FieldInfo) (ds : List (FieldInfo × FieldInfo)) : St :=
  { s with live := setCopy c.tmp s.live d, poller := .writing ({ c with copies := ds }) }

section Steps
variable (lib : Lib) (t : GoType) (cap : Nat)

/-- poll up to its call of Lock, when the ticker fires: Resolve into a new record, its
snapshot and the comparison, and, when something changed, the walks of the new record and
of the watched one. The walk of the watched record runs without the lock and keeps the
record it returns. A poll that fails or finds no change ends here, pollLoop keeping its
snapshot unless poll returns nil. -/
def St.beginPoll (k : Tick) (s : St) : St :=
  let r := resolve lib k.cfg t t.zero
  if r.2 ≠ [] then { s with done := s.done ++ [k] }
  else
    let n := takeSnapshot lib k.cfg t r.1
    let events := diffEvents s.snapshot n.2
    if events = [] then
      { s with snapshot := if n.2 = [] then s.snapshot else n.2, done := s.done ++ [k] }
    else
      let tmp := collectFields k.cfg t n.1
      let dst := collectFields k.cfg t s.live
      { s with live := dst.1, poller := .locking ⟨tmp.1, dst.2.fields.zip tmp.2.fields, n.2, events, k⟩ }

/-- Unlock, the non-blocking sends, and pollLoop keeping poll's snapshot. -/
def St.endPoll (s : St) (c : Cycle) : St :=
  { s with
    queue := (sendAll cap c.tick.drains s.queue c.events).1
    snapshot := if c.snap = [] then s.snapshot else c.snap
    poller := .idle
    done := s.done ++ [c.tick] }

/-- A step that cannot happen now leaves the state as it is: RLock waits while poll holds
or waits for the lock, Lock waits for the readers in their sections. -/
def St.next (s : St) : Ev → St
  | .rlock i =>
    match s.poller, s.readers[i]? with
    | .idle, some .idle => s.setReader i (.reading [])
    | .exited, some .idle => s.setReader i (.reading [])
    | _, _ => s
  | .read i p =>
    match s.readers[i]? with
    | some (.reading rs) => s.setReader i (.reading (rs ++ [(p, s.live.get p)]))
    | _ => s
  | .runlock i =>
    match s.readers[i]? with
    | some (.reading _) => s.setReader i .idle
    | _ => s
  | .tick k =>
    match s.poller with
    | .idle => s.beginPoll lib t k
    | _ => s
  | .lock =>
    match s.poller with
    | .locking c => if s.readers.all Reader.isIdle then { s with poller := .writing c } else s
    | _ => s
  | .set =>
    match s.poller with
    | .writing c =>
      match c.copies with
      | d :: ds => s.setField c d ds
      | [] => s
    | _ => s
  | .unlock =>
    match s.poller with
    | .writing c =>
      match c.copies with
      | [] => s.endPoll cap c
      | _ :: _ => s
    | _ => s
  | .exit =>
    match s.poller with
    | .idle => { s with poller := .exited }
    | _ => s

def St.run : St → List Ev → St
  | s, [] => s
  | s, e :: es => (s.next lib t cap e).run es

end Steps

/-- Watch has returned with `s₀`, and `n` goroutines will read the record. -/
def St.init (s₀ : WatchState) (n : Nat) : St :=
  ⟨s₀.live, s₀.snapshot, s₀.queue, .idle, List.replicate n .idle, []⟩

/-- The watcher as pollLoop sees it between polls. -/
def St.view (s : St) : WatchState := ⟨s.live, s.snapshot, s.queue⟩

/-- The ticks of the polls begun: those ended, and the one holding or waiting for the lock. -/
def St.begun (s : St) : List Tick :=
  match s.poller with
  | .idle | .exited => s.done
  | .locking c | .writing c => s.done ++ [c.tick]

/-- The watcher once the poll in progress has made its remaining Set calls and ended. -/
def St.settled (cap : Nat) (s : St) : WatchState :=
  match s.poller with
  | .idle | .exited => s.view
  | .locking c | .writing c =>
    ⟨c.copies.foldl (setCopy c.tmp) s.live, if c.snap = [] then s.snapshot else c.snap,
      (sendAll cap c.tick.drains s.queue c.events).1⟩

@[simp] theorem St.setReader_live (s : St) (i : Nat) (r : Reader) : (s.setReader i r).live = s.live := rfl
@[simp] theorem St.setReader_poller (s : St) (i : Nat) (r : Reader) : (s.setReader i r).poller = s.poller := rfl
@[simp] theorem St.setReader_done (s : St) (i : Nat) (r : Reader) : (s.setReader i r).done = s.done := rfl
@[simp] theorem St.setReader_begun (s : St) (i : Nat) (r : Reader) : (s.setReader i r).begun = s.begun := rfl
@[simp] theorem St.setReader_settled (cap : Nat) (s : St) (i : Nat) (r : Reader) :
    (s.setReader i r).settled cap = s.settled cap := rfl

/-! ### What a step can do -/

section Cases
variable {lib : Lib} {t : GoType} {cap : Nat}

/-- What a step of the model does, with the guard under which it does it: nothing, one of
a reader's three, the start of a poll while pollLoop is between polls, Lock once every
reader has left, a Set call or Unlock while poll holds the lock, or the loop's return
between polls. -/
inductive St.Step (lib : Lib) (t : GoType) (cap : Nat) (s : St) : Ev → St → Prop
  | stay (e : Ev) : St.Step lib t cap s e s
  | rlock {i : Nat} (hp : s.poller = .idle ∨ s.poller = .exited) (hi : s.readers[i]? = some .idle) :
      St.Step lib t cap s (.rlock i) (s.setReader i (.reading []))
  | read {i : Nat} {rs : List (Path × Option Value)} (p : Path) (hi : s.readers[i]? = some (.reading rs)) :
      St.Step lib t cap s (.read i p) (s.setReader i (.reading (rs ++ [(p, s.live.get p)])))
  | runlock {i : Nat} {rs : List (Path × Option Value)} (hi : s.readers[i]? = some (.reading rs)) :
      St.Step lib t cap s (.runlock i) (s.setReader i .idle)
  | tick (k : Tick) (hp : s.poller = .idle) : St.Step lib t cap s (.tick k) (s.beginPoll lib t k)
  | lock {c : Cycle} (hp : s.poller = .locking c) (hall : ∀ r ∈ s.readers, r = .idle) :
      St.Step lib t cap s .lock { s with poller := .writing c }
  | set {c : Cycle} {d : FieldInfo × FieldInfo} {ds : List (FieldInfo × FieldInfo)}
      (hp : s.poller = .writing c) (hc : c.copies = d :: ds) : St.Step lib t cap s .set (s.setField c d ds)
  | unlock {c : Cycle} (hp : s.poller = .writing c) (hc : c.copies = []) :
      St.Step lib t cap s .unlock (s.endPoll cap c)
  | exit (hp : s.poller = .idle) : St.Step lib t cap s .exit { s with poller := .exited }

theorem St.next_step (s : St) (e : Ev) : St.Step lib t cap s e (s.next lib t cap e) := by
  cases e with
  | rlock i =>
    rw [St.next]
    split
    · rename_i hp hi; exact .rlock (.inl hp) hi
    · rename_i hp hi; exact .rlock (.inr hp) hi
    · exact .stay _
  | read i p =>
    rw [St.next]
    split
    · rename_i hi; exact .read p hi
    · exact .stay _
  | runlock i =>
    rw [St.next]
    split
    · rename_i hi; exact .runlock hi
    · exact .stay _
  | tick k =>
    rw [St.next]
    split
    · rename_i hp; exact .tick k hp
    · exact .stay _
  | lock =>
    rw [St.next]
    split
    · rename_i c hp
      split
      · rename_i hall
        refine .lock hp fun r hr => ?_
        have := List.all_eq_true.mp hall r hr
        cases r <;> simp_all [Reader.isIdle]
      · exact .stay _
    · exact .stay _
  | set =>
    rw [St.next]
    split
    · rename_i c hp
      split
      · rename_i hc; exact .set hp hc
      · exact .stay _
    · exact .stay _
  | unlock =>
    rw [St.next]
    split
    · rename_i c hp
      split
      · rename_i hc; exact .unlock hp hc
      · exact .stay _
    · exact .stay _
  | exit =>
    rw [St.next]
    split
    · rename_i hp; exact .exit hp
    · exact .stay _

/-- A reader found in its section after `setReader` is the one set, or was there before. -/
theorem readers_set_eq_some {l : List Reader} {i j : Nat} {r x : Reader} (h : (l.set i r)[j]? = some x) :
    (i = j ∧ x = r) ∨ l[j]? = some x := by
  rw [List.getElem?_set] at h
  split_ifs at h with hij
  · exact .inl ⟨hij, (Option.some.inj h).symm⟩
  · exact .inr h

end Cases

/-! ### The fine-grained poll refines pollLoop's cycle -/

section Refinement
variable (lib : Lib) (t : GoType) (cap : Nat)

theorem run_concat (k : Tick) : ∀ (ks : List Tick) (s : WatchState),
    run lib t cap (ks ++ [k]) s = (step lib t cap k (run lib t cap ks s)).1
  | [], _ => rfl
  | _ :: ks, _ => run_concat k ks _

/-- poll's start from a state between polls begins the tick's cycle, and the cycle, once
ended, is pollLoop's turn. -/
theorem St.beginPoll_settled {s : St} (hp : s.poller = .idle) (k : Tick) :
    (s.beginPoll lib t k).begun = s.done ++ [k] ∧
      (s.beginPoll lib t k).settled cap = (step lib t cap k s.view).1 := by
  unfold St.beginPoll step poll St.view
  dsimp only
  split_ifs <;> simp [*, St.begun, St.settled, St.view, copyFields_eq_foldl]

variable {lib t cap} {s₀ : WatchState}

/-- One step keeps the refinement: the state once the poll in progress ends is pollLoop's
after the polls begun. -/
theorem St.settled_next {s : St} (h : s.settled cap = GoSecrets.run lib t cap s.begun s₀) (e : Ev) :
    (s.next lib t cap e).settled cap = GoSecrets.run lib t cap (s.next lib t cap e).begun s₀ := by
  have hst : St.Step lib t cap s e (s.next lib t cap e) := St.next_step s e
  generalize s.next lib t cap e = s' at hst ⊢
  cases hst with
  | stay => exact h
  | rlock | read | runlock => simpa using h
  | tick k hp =>
    obtain ⟨hb, hs⟩ := St.beginPoll_settled lib t cap hp k
    rw [hb, hs, run_concat]
    simpa [St.settled, St.begun, hp] using congrArg (fun w => (step lib t cap k w).1) h
  | lock hp => simpa [St.settled, St.begun, hp] using h
  | set hp hc => simpa [St.settled, St.begun, St.setField, hp, hc] using h
  | unlock hp hc => simpa [St.settled, St.begun, St.endPoll, St.view, hp, hc] using h
  | exit hp => simpa [St.settled, St.begun, St.view, hp] using h

theorem St.settled_run (s : St) (h : s.settled cap = GoSecrets.run lib t cap s.begun s₀) :
    ∀ es, (s.run lib t cap es).settled cap = GoSecrets.run lib t cap (s.run lib t cap es).begun s₀
  | [] => h
  | e :: es => St.settled_run _ (St.settled_next h e) es

/-- Interleaved in any order with the readers' steps, poll's copy of the changed fields one
Set call at a time refines pollLoop's atomic cycle: at every point of a run from Watch's
state, ending the poll in progress gives pollLoop's state after the cycles begun. -/
theorem lock_cycles_refine_watch (s₀ : WatchState) (n : Nat) (es : List Ev) :
    ((St.init s₀ n).run lib t cap es).settled cap =
      GoSecrets.run lib t cap ((St.init s₀ n).run lib t cap es).begun s₀ :=
  St.settled_run (St.init s₀ n) rfl es

end Refinement

/-! ### Readers and the lock -/

section Safety
variable {lib : Lib} {t : GoType} {cap : Nat} {cfg : ResolverConfig} {s₀ : WatchState}

/-- What holds at every point of a run from Watch's state `s₀`: the refinement; the polls
begun see providers of the configuration's shape; while poll waits for the lock the record
is still pollLoop's after the polls ended; no reader is in its section while poll holds the
lock; and what a reader has read in its section is what the record holds. -/
structure Safe (lib : Lib) (t : GoType) (cap : Nat) (cfg : ResolverConfig) (s₀ : WatchState)
    (s : St) : Prop where
  settled : s.settled cap = run lib t cap s.begun s₀
  shape : ∀ k ∈ s.begun, k.cfg.SameShape cfg
  locking : ∀ c, s.poller = .locking c → s.live = (run lib t cap s.done s₀).live
  excl : ∀ c, s.poller = .writing c → ∀ r ∈ s.readers, r = .idle
  reads : ∀ (i : Nat) (rs : List (Path × Option Value)), s.readers[i]? = some (.reading rs) →
    ∀ x ∈ rs, x.2 = s.live.get x.1

theorem not_reading_of_idle {l : List Reader} (h : ∀ r ∈ l, r = .idle) (i : Nat)
    (rs : List (Path × Option Value)) : l[i]? ≠ some (.reading rs) :=
  fun hi => nomatch h _ (List.getElem?_mem hi)

/-- poll's start reads the record and the goroutines only through the walk, which on a
walked record writes nothing; it ends the poll, or waits for the lock with the polls ended
as they were. -/
theorem St.beginPoll_frame {s : St} {k : Tick} (hw : Walked k.cfg t s.live) :
    (s.beginPoll lib t k).live = s.live ∧ (s.beginPoll lib t k).readers = s.readers ∧
      ((s.beginPoll lib t k).poller = s.poller ∨
        ∃ c, (s.beginPoll lib t k).poller = .locking c ∧ (s.beginPoll lib t k).done = s.done) := by
  unfold St.beginPoll
  dsimp only
  split_ifs
  · exact ⟨rfl, rfl, .inl rfl⟩
  · exact ⟨rfl, rfl, .inl rfl⟩
  · exact ⟨rfl, rfl, .inl rfl⟩
  · exact ⟨hw, rfl, .inr ⟨_, rfl, rfl⟩⟩

/-- Until poll holds the lock, the record is pollLoop's after the polls ended. -/
theorem Safe.live_eq {s : St} (hs : Safe lib t cap cfg s₀ s) (hw : ∀ c, s.poller ≠ .writing c) :
    s.live = (run lib t cap s.done s₀).live := by
  have h := hs.settled
  cases hp : s.poller with
  | locking c => exact hs.locking c hp
  | writing c => exact absurd hp (hw c)
  | _ => simp only [St.settled, St.begun, hp] at h; exact congrArg WatchState.live h

/-- Between polls the record is walked for every configuration of the shape. -/
theorem Safe.walked {v : Value} (ht : t.kind = .struct) (h₀ : watch lib t cfg v = some s₀) {s : St}
    (hs : Safe lib t cap cfg s₀ s) (hp : s.poller = .idle) {k : Tick} (hk : k.cfg.SameShape cfg) :
    Walked k.cfg t s.live := by
  have hdone : ∀ k ∈ s.done, k.cfg.SameShape cfg := by simpa [St.begun, hp] using hs.shape
  rw [hs.live_eq (by simp [hp])]
  exact (walked_sameShape hk).mpr (reachable_synced cap ht h₀ hdone).walked

/-- One step keeps `Safe`, when a tick sees providers of the configuration's shape. -/
theorem Safe.next {v : Value} (ht : t.kind = .struct) (h₀ : watch lib t cfg v = some s₀) {s : St}
    (hs : Safe lib t cap cfg s₀ s) {e : Ev} (he : ∀ k, e = .tick k → k.cfg.SameShape cfg) :
    Safe lib t cap cfg s₀ (s.next lib t cap e) := by
  have hset := St.settled_next hs.settled e
  have hst : St.Step lib t cap s e (s.next lib t cap e) := St.next_step s e
  generalize s.next lib t cap e = s' at hst hset ⊢
  cases hst with
  | stay => exact hs
  | rlock hp hi =>
    have hnh : ∀ c, s.poller ≠ .locking c ∧ s.poller ≠ .writing c := fun c => by
      rcases hp with hp | hp <;> simp [hp]
    refine ⟨hset, by simpa using hs.shape, fun c hc => absurd (by simpa using hc) (hnh c).1,
      fun c hc => absurd (by simpa using hc) (hnh c).2, fun j rs' hj => ?_⟩
    rcases readers_set_eq_some hj with ⟨-, h'⟩ | h'
    · cases h'; simp
    · simpa using hs.reads j rs' h'
  | @read i rs p hi =>
    have hnw : ∀ c, s.poller ≠ .writing c :=
      fun c hc => not_reading_of_idle (hs.excl c hc) i rs hi
    refine ⟨hset, by simpa using hs.shape, by simpa using hs.locking, fun c hc => absurd hc (hnw c),
      fun j rs' hj => ?_⟩
    rcases readers_set_eq_some hj with ⟨-, h'⟩ | h'
    · cases h'
      simpa [or_imp, forall_and] using hs.reads i rs hi
    · simpa using hs.reads j rs' h'
  | runlock hi =>
    refine ⟨hset, by simpa using hs.shape, by simpa using hs.locking, fun c hc r hr => ?_,
      fun j rs' hj => ?_⟩
    · rcases List.mem_or_eq_of_mem_set hr with h' | h'
      · exact hs.excl c hc r h'
      · exact h'
    · rcases readers_set_eq_some hj with ⟨-, h'⟩ | h'
      · cases h'
      · simpa using hs.reads j rs' h'
  | tick k hp =>
    obtain ⟨hl, hr, hpo⟩ := St.beginPoll_frame (hs.walked ht h₀ hp (he k rfl))
    have hb := (St.beginPoll_settled lib t cap hp k).1
    refine ⟨hset, ?_, fun c hc => ?_, fun c hc => ?_, ?_⟩
    · rw [hb]
      intro k' hk'
      rcases List.mem_append.mp hk' with h' | h'
      · exact hs.shape k' (by simpa [St.begun, hp] using h')
      · rw [List.mem_singleton.mp h']; exact he k rfl
    · rcases hpo with hpo | ⟨c', hc', hd⟩
      · rw [hpo, hp] at hc; cases hc
      · rw [hl, hd]; exact hs.live_eq (by simp [hp])
    · rcases hpo with hpo | ⟨c', hc', -⟩
      · rw [hpo, hp] at hc; cases hc
      · rw [hc'] at hc; cases hc
    · rw [hl, hr]; exact hs.reads
  | lock hp hall =>
    exact ⟨hset, by simpa [St.begun, hp] using hs.shape, by simp, fun _ _ => hall,
      fun j rs hj => absurd hj (not_reading_of_idle hall j rs)⟩
  | @set c d ds hp hc =>
    exact ⟨hset, by simpa [St.begun, St.setField, hp] using hs.shape, by simp [St.setField],
      fun _ _ => hs.excl c hp, fun j rs hj => absurd hj (not_reading_of_idle (hs.excl c hp) j rs)⟩
  | @unlock c hp hc =>
    exact ⟨hset, by simpa [St.begun, St.endPoll, hp] using hs.shape, by simp [St.endPoll],
      by simp [St.endPoll], fun j rs hj => absurd hj (not_reading_of_idle (hs.excl c hp) j rs)⟩
  | exit hp => exact ⟨hset, by simpa [St.begun, hp] using hs.shape, by simp, by simp, hs.reads⟩

theorem Safe.init (s₀ : WatchState) (n : Nat) : Safe lib t cap cfg s₀ (St.init s₀ n) where
  settled := rfl
  shape := by simp [St.begun, St.init]
  locking := by simp [St.init]
  excl := by simp [St.init]
  reads i rs hi := absurd (List.eq_of_mem_replicate (List.getElem?_mem hi)) (by simp)

theorem Safe.run {v : Value} (ht : t.kind = .struct) (h₀ : watch lib t cfg v = some s₀) :
    ∀ (es : List Ev) {s : St}, Safe lib t cap cfg s₀ s → (∀ k, Ev.tick k ∈ es → k.cfg.SameShape cfg) →
      Safe lib t cap cfg s₀ (s.run lib t cap es)
  | [], _, hs, _ => hs
  | _ :: es, _, hs, hk =>
    Safe.run ht h₀ es (hs.next ht h₀ fun k h => hk k (h ▸ .head _)) fun k h => hk k (.tail _ h)

/-- A step that changes the record is a Set call of poll holding the lock: the walk of the
record that poll makes without the lock writes nothing. -/
theorem Safe.live_next {v : Value} (ht : t.kind = .struct) (h₀ : watch lib t cfg v = some s₀) {s : St}
    (hs : Safe lib t cap cfg s₀ s) {e : Ev} (he : ∀ k, e = .tick k → k.cfg.SameShape cfg)
    (hl : (s.next lib t cap e).live ≠ s.live) : e = .set ∧ ∃ c, s.poller = .writing c := by
  have hst : St.Step lib t cap s e (s.next lib t cap e) := St.next_step s e
  generalize s.next lib t cap e = s' at hst hl
  cases hst with
  | tick k hp => exact absurd (St.beginPoll_frame (hs.walked ht h₀ hp (he k rfl))).1 hl
  | @set c d ds hp hc => exact ⟨rfl, c, hp⟩
  | _ => exact absurd (by simp [St.setReader, St.endPoll]) hl

/-- Over every interleaving of the readers' steps with pollLoop's polls, from Watch's
state: no reader is in its read section while poll holds the lock; every read made in a
section that is still open finds what pollLoop's record holds after the polls ended, so a
section reads one record, never a half-copied one; and only a Set call of poll holding the
lock changes the record, the walk that poll makes of it without the lock writing nothing. -/
theorem readers_see_one_record {v : Value} (ht : t.kind = .struct) (h₀ : watch lib t cfg v = some s₀)
    (n : Nat) (es : List Ev) (hk : ∀ k, Ev.tick k ∈ es → k.cfg.SameShape cfg) :
    let s := (St.init s₀ n).run lib t cap es
    (∀ c, s.poller = .writing c → ∀ r ∈ s.readers, r = .idle) ∧
      (∀ (i : Nat) (rs : List (Path × Option Value)), s.readers[i]? = some (.reading rs) →
        ∀ x ∈ rs, x.2 = (run lib t cap s.done s₀).live.get x.1) ∧
      ∀ e, (∀ k, e = .tick k → k.cfg.SameShape cfg) →
        (s.next lib t cap e).live ≠ s.live → e = .set ∧ ∃ c, s.poller = .writing c := by
  intro s
  have hs : Safe lib t cap cfg s₀ s := Safe.run ht h₀ es (Safe.init s₀ n) hk
  refine ⟨hs.excl, fun i rs hi x hx => ?_, fun e he => hs.live_next ht h₀ he⟩
  rw [← hs.live_eq fun c hc => not_reading_of_idle (hs.excl c hc) i rs hi]
  exact hs.reads i rs hi x hx

/-- A read section, a poll whose Versioned field's previous value rotates, and a second
reader. -/
def lockRun : List Ev :=
  [.rlock 0, .read 0 [.field 0], .tick ⟨rotatingConfig "y", []⟩, .runlock 0, .lock, .set, .unlock, .rlock 1]

theorem readers_see_one_record_versioned :
    versionedRecord.kind = .struct ∧
      watch Lib.stringsOnly versionedRecord (rotatingConfig "x") versionedRecord.zero = some versionedState ∧
      (∀ k, Ev.tick k ∈ lockRun → k.cfg.SameShape (rotatingConfig "x")) ∧
      let s := (St.init versionedState 2).run Lib.stringsOnly versionedRecord 1 lockRun
      (∀ c, s.poller = .writing c → ∀ r ∈ s.readers, r = .idle) ∧
        (∀ (i : Nat) (rs : List (Path × Option Value)), s.readers[i]? = some (.reading rs) →
          ∀ x ∈ rs, x.2 = (run Lib.stringsOnly versionedRecord 1 s.done versionedState).live.get x.1) ∧
        ∀ e, (∀ k, e = .tick k → k.cfg.SameShape (rotatingConfig "x")) →
          (s.next Lib.stringsOnly versionedRecord 1 e).live ≠ s.live → e = .set ∧ ∃ c, s.poller = .writing c := by
  have hk : ∀ k, Ev.tick k ∈ lockRun → k.cfg.SameShape (rotatingConfig "x") := by
    intro k hk
    simp only [lockRun, List.mem_cons, Ev.tick.injEq, reduceCtorEq, List.mem_nil_iff, or_false, false_or] at hk
    subst hk
    exact ⟨fun _ => rfl, rfl⟩
  exact ⟨rfl, rfl, hk, @readers_see_one_record Lib.stringsOnly versionedRecord 1 (rotatingConfig "x")
    versionedState versionedRecord.zero rfl rfl 2 lockRun hk⟩

end Safety

/-! ### Every state settles -/

section Settle
variable {lib : Lib} {t : GoType} {cap : Nat}

theorem St.run_append (s : St) (es es' : List Ev) :
    s.run lib t cap (es ++ es') = (s.run lib t cap es).run lib t cap es' := by
  induction es generalizing s with
  | nil => rfl
  | cons e es ih => exact ih _

theorem set_of_not_reading {l : List Reader} {i : Nat} (h : ∀ rs, l[i]? ≠ some (.reading rs)) :
    l.set i .idle = l := by
  apply List.ext_getElem?
  intro j
  rw [List.getElem?_set]
  split_ifs with hij hi
  · subst hij
    rw [List.getElem?_eq_getElem hi]
    cases hr : l[i] with
    | idle => rfl
    | reading rs => exact absurd (by rw [List.getElem?_eq_getElem hi, hr]) (h rs)
  · exact (List.getElem?_eq_none (by omega)).symm
  · rfl

theorem foldl_set_range {α : Type} (x : α) (l : List α) :
    ∀ m, m ≤ l.length → (List.range m).foldl (fun l i => l.set i x) l = List.replicate m x ++ l.drop m
  | 0, _ => rfl
  | m + 1, h => by
    rw [List.range_succ, List.foldl_append, foldl_set_range x l m (by omega), List.foldl_cons,
      List.foldl_nil, List.set_append_right _ _ (by simp), List.length_replicate, Nat.sub_self,
      List.drop_eq_getElem_cons (by omega), List.set_cons_zero, List.replicate_succ',
      List.append_assoc, List.singleton_append]

/-- RUnlock is the same step whether or not the reader is in its section. -/
theorem St.next_runlock (s : St) (i : Nat) : s.next lib t cap (.runlock i) = s.setReader i .idle := by
  rw [St.next]
  split
  · rfl
  · rename_i h
    simp only [St.setReader, set_of_not_reading fun rs => h rs]

/-- Every reader's RUnlock, in order of the readers. -/
theorem St.run_runlocks (s : St) :
    s.run lib t cap ((List.range s.readers.length).map .runlock) =
      { s with readers := List.replicate s.readers.length .idle } := by
  suffices ∀ m, s.run lib t cap ((List.range m).map .runlock) =
      { s with readers := (List.range m).foldl (fun l i => l.set i .idle) s.readers } by
    rw [this, foldl_set_range _ _ _ le_rfl, List.drop_length, List.append_nil]
  intro m
  induction m with
  | zero => rfl
  | succ m ih =>
    rw [List.range_succ, List.map_append, St.run_append, ih, List.foldl_append]
    exact congrArg (fun s => s.run lib t cap []) (St.next_runlock _ m)

/-- poll holding the lock makes its remaining Set calls. -/
theorem St.run_sets : ∀ (ds : List (FieldInfo × FieldInfo)) {s : St} {c : Cycle},
    s.poller = .writing c → c.copies = ds →
      s.run lib t cap (List.replicate ds.length .set) =
        { s with live := ds.foldl (setCopy c.tmp) s.live, poller := .writing { c with copies := [] } }
  | [], s, c, hp, hc => by
    obtain ⟨tmp, copies, snap, events, tick⟩ := c
    cases hc
    cases s
    cases hp
    rfl
  | d :: ds, s, c, hp, hc => by
    have h : s.next lib t cap .set = s.setField c d ds := by simp only [St.next, hp, hc]
    rw [List.length_cons, List.replicate_succ, St.run, h,
      St.run_sets ds (s := s.setField c d ds) (c := { c with copies := ds }) rfl rfl]
    simp [St.setField]

/-- poll holding the lock makes its remaining Set calls and Unlock: pollLoop is then
between polls, in the state `settled` names. -/
theorem St.run_finish {s : St} {c : Cycle} (hp : s.poller = .writing c) :
    let s' := s.run lib t cap (List.replicate c.copies.length .set ++ [.unlock])
    s'.poller = .idle ∧ s'.readers = s.readers ∧ s'.view = s.settled cap ∧ s'.done = s.begun := by
  rw [St.run_append, St.run_sets _ hp rfl]
  simp [St.run, St.next, St.endPoll, St.view, St.settled, St.begun, hp]

/-- From every state, the readers leaving their sections and poll finishing bring pollLoop
between polls (or leave it returned) with no reader in a section, in the state once the
poll in progress ends, with that poll ended. -/
theorem lock_settles (s : St) : ∃ es,
    let s' := s.run lib t cap es
    (s'.poller = .idle ∨ s'.poller = .exited) ∧ (∀ r ∈ s'.readers, r = .idle) ∧
      s'.view = s.settled cap ∧ s'.done = s.begun := by
  have h₁ : s.run lib t cap ((List.range s.readers.length).map .runlock) =
      { s with readers := List.replicate s.readers.length .idle } := St.run_runlocks s
  have hidle : ∀ r ∈ List.replicate s.readers.length Reader.idle, r = .idle :=
    fun _ => List.eq_of_mem_replicate
  cases hp : s.poller with
  | locking c =>
    refine ⟨(List.range s.readers.length).map .runlock ++
      .lock :: (List.replicate c.copies.length .set ++ [.unlock]), ?_⟩
    have h₂ : (s.run lib t cap ((List.range s.readers.length).map .runlock)).next lib t cap .lock =
        { s with readers := List.replicate s.readers.length .idle, poller := .writing c } := by
      rw [h₁]
      simp [St.next, hp, Reader.isIdle]
    rw [St.run_append, St.run, h₂]
    obtain ⟨h₃, h₄, h₅, h₆⟩ := @St.run_finish lib t cap
      { s with readers := List.replicate s.readers.length .idle, poller := .writing c } c rfl
    refine ⟨.inl h₃, h₄ ▸ hidle, ?_, ?_⟩
    · rw [h₅]; simp [St.settled, hp]
    · rw [h₆]; simp [St.begun, hp]
  | writing c =>
    refine ⟨(List.range s.readers.length).map .runlock ++
      (List.replicate c.copies.length .set ++ [.unlock]), ?_⟩
    rw [St.run_append, h₁]
    obtain ⟨h₃, h₄, h₅, h₆⟩ := @St.run_finish lib t cap
      { s with readers := List.replicate s.readers.length .idle } c hp
    exact ⟨.inl h₃, h₄ ▸ hidle, h₅, h₆⟩
  | _ =>
    refine ⟨(List.range s.readers.length).map .runlock, ?_⟩
    simp only [h₁]
    exact ⟨by simp [hp], hidle, by simp [St.view, St.settled, hp], by simp [St.begun, hp]⟩

end Settle

/-! ### After pollLoop returns -/

section Exit
variable {lib : Lib} {t : GoType} {cap : Nat}

/-- Once pollLoop has returned, every step is a reader's, and the record stays. -/
theorem St.next_of_exited {s : St} (hx : s.poller = .exited) (e : Ev) :
    (s.next lib t cap e).live = s.live ∧ (s.next lib t cap e).poller = .exited := by
  have hst : St.Step lib t cap s e (s.next lib t cap e) := St.next_step s e
  generalize s.next lib t cap e = s' at hst ⊢
  cases hst with
  | stay | rlock | read | runlock => exact ⟨rfl, hx⟩
  | tick _ hp | lock hp | set hp | unlock hp | exit hp => rw [hx] at hp; cases hp

theorem St.run_of_exited {s : St} (hx : s.poller = .exited) :
    ∀ es, (s.run lib t cap es).live = s.live ∧ (s.run lib t cap es).poller = .exited
  | [] => ⟨rfl, hx⟩
  | e :: es =>
    have h : (s.next lib t cap e).live = s.live ∧ _ := St.next_of_exited hx e
    (St.run_of_exited h.2 es).imp_left (·.trans h.1)

/-- Once pollLoop has returned, after Stop or the context's cancellation, the watched
record is pollLoop's after the polls that ended, none cut short in its copy loop, and no
later step of any goroutine changes it. -/
theorem exit_freezes_record (s₀ : WatchState) (n : Nat) (es : List Ev)
    (hx : ((St.init s₀ n).run lib t cap es).poller = .exited) (es' : List Ev) :
    let s := (St.init s₀ n).run lib t cap es
    s.live = (run lib t cap s.done s₀).live ∧
      (s.run lib t cap es').live = s.live ∧ (s.run lib t cap es').poller = .exited := by
  have h : ((St.init s₀ n).run lib t cap es).settled cap =
      run lib t cap ((St.init s₀ n).run lib t cap es).begun s₀ := St.settled_run (St.init s₀ n) rfl es
  simp only [St.settled, St.begun, hx] at h
  exact ⟨congrArg WatchState.live h, St.run_of_exited hx es'⟩

theorem exit_freezes_record_after_stop :
    ((St.init versionedState 1).run Lib.stringsOnly versionedRecord 1 [.exit]).poller = .exited ∧
      let s := (St.init versionedState 1).run Lib.stringsOnly versionedRecord 1 [.exit]
      let es' : List Ev := [.rlock 0, .read 0 [.field 0], .tick ⟨rotatingConfig "y", []⟩, .lock, .set, .unlock]
      s.live = (run Lib.stringsOnly versionedRecord 1 s.done versionedState).live ∧
        (s.run Lib.stringsOnly versionedRecord 1 es').live = s.live ∧
        (s.run Lib.stringsOnly versionedRecord 1 es').poller = .exited :=
  ⟨rfl, exit_freezes_record versionedState 1 [.exit] rfl _⟩

end Exit

end GoSecrets.WatchLock
