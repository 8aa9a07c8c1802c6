import GoSecrets.Resolve

/-! The watcher (watcher.go): Watch, takeSnapshot, poll and pollLoop, as a state machine
over poll cycles. Each cycle sees its own provider answers, a configuration of the same
shape; the reader of the Changes channel takes events at any time. Stop and context
cancellation, which end the loop, are the subject of GoSecrets.Stop. -/
namespace GoSecrets

/-- fieldSnapshot: a collected field's rendering after fragment extraction. -/
structure FieldSnapshot where
  fieldName : String
  key : Bytes
  providerName : Bytes
  raw : Bytes
deriving DecidableEq, Repr

/-- ChangeEvent. -/
structure ChangeEvent where
  field : String
  key : Bytes
  provider : Bytes
  oldValue : Bytes
  newValue : Bytes
deriving DecidableEq, Repr

section Snapshot
variable (lib : Lib) (cfg : ResolverConfig)

/-- The snapshot entry of a collected field of record `v`. -/
def snapshotOf (v : Value) (fi : FieldInfo) : FieldSnapshot :=
  ⟨fi.fieldName, fi.tag.key, if fi.providerName = [] then fi.tag.scheme else fi.providerName,
    fieldToBytes lib fi.type ((v.get fi.path).getD fi.type.zero) fi.isVersioned⟩

/-- takeSnapshot(dst): the record after the walk, and an entry per field it collects. -/
def takeSnapshot (t : GoType) (v : Value) : Value × List FieldSnapshot :=
  if t.kind = .struct then
    let c := collectFields cfg t v
    (c.1, c.2.fields.map (snapshotOf lib c.1))
  else (v, [])

end Snapshot

/-- poll's comparison: an event for each position of both snapshots whose bytes differ. -/
def diffEvents : List FieldSnapshot → List FieldSnapshot → List ChangeEvent
  | o :: os, n :: ns =>
    (if o.raw = n.raw then [] else [⟨n.fieldName, n.key, n.providerName, o.raw, n.raw⟩]) ++
      diffEvents os ns
  | _, _ => []

/-- poll's copy step: `dstFields[i].fieldValue.Set(tmpFields[i].fieldValue)` for each `i`
below both lengths. -/
def copyFields (tmp : Value) : List FieldInfo → List FieldInfo → Value → Value
  | d :: ds, s :: ss, dst => copyFields tmp ds ss (dst.set d.path ((tmp.get s.path).getD d.type.zero))
  | _, _, dst => dst

/-- One field of the copy when both walks collect the same fields: set field `fi` of the
live record to the shadow's value at the same path. -/
def copyStep (tmp : Value) (r : Value) (fi : FieldInfo) : Value :=
  r.set fi.path ((tmp.get fi.path).getD fi.type.zero)

/-- The non-blocking sends into the Changes channel of capacity `cap`: before each send
the reader takes `drains` events from the front; a send that finds the buffer full is
dropped. The channel's buffer afterwards, and the events sent. -/
def sendAll (cap : Nat) : List Nat → List ChangeEvent → List ChangeEvent →
    List ChangeEvent × List ChangeEvent
  | _, q, [] => (q, [])
  | drains, q, e :: es =>
    let q := q.drop (drains.headD 0)
    if q.length < cap then
      let r := sendAll cap drains.tail (q ++ [e]) es
      (r.1, e :: r.2)
    else sendAll cap drains.tail q es

/-- What a cycle does that others can see: a write of the live record under the lock, or
a send on the channel. -/
inductive Effect where
  | write (live : Value)
  | send (e : ChangeEvent)

/-- The watcher between cycles: the live record, pollLoop's snapshot, the channel. -/
structure WatchState where
  live : Value
  snapshot : List FieldSnapshot
  queue : List ChangeEvent

/-- A cycle's environment: the providers' answers during the cycle, and how many events
the reader takes before each send. -/
structure Tick where
  cfg : ResolverConfig
  drains : List Nat

section Loop
variable (lib : Lib) (t : GoType) (cap : Nat)

/-- Watch: the initial Resolve and snapshot; none when Resolve fails. -/
def watch (cfg : ResolverConfig) (v : Value) : Option WatchState :=
  let r := resolve lib cfg t v
  if r.2 = [] then
    let s := takeSnapshot lib cfg t r.1
    some ⟨s.1, s.2, []⟩
  else none

/-- poll: Resolve into a new zero record; on success snapshot it, compare, and when
something differs copy the collected fields into the live record, then send the events.
The new state, the snapshot poll returns (none for nil on failure), and the effects. -/
def poll (k : Tick) (s : WatchState) : WatchState × Option (List FieldSnapshot) × List Effect :=
  let r := resolve lib k.cfg t t.zero
  if r.2 ≠ [] then (s, none, [])
  else
    let n := takeSnapshot lib k.cfg t r.1
    let events := diffEvents s.snapshot n.2
    if events = [] then (s, some n.2, [])
    else
      let tmp := collectFields k.cfg t n.1
      let dst := collectFields k.cfg t s.live
      let live := copyFields tmp.1 dst.2.fields tmp.2.fields dst.1
      let sent := sendAll cap k.drains s.queue events
      ({ s with live := live, queue := sent.1 }, some n.2, .write live :: sent.2.map .send)

/-- One turn of pollLoop: poll, then keep its snapshot unless it is nil. -/
def step (k : Tick) (s : WatchState) : WatchState × List Effect :=
  let p := poll lib t cap k s
  match p.2.1 with
  | some snap => ({ p.1 with snapshot := if snap = [] then s.snapshot else snap }, p.2.2)
  | none => (p.1, p.2.2)

/-- pollLoop over a sequence of cycles. -/
def run : List Tick → WatchState → WatchState
  | [], s => s
  | k :: ks, s => run ks (step lib t cap k s).1

end Loop

/-! ### Snapshots, events and the copy -/

section Shape
variable (lib : Lib)

theorem takeSnapshot_walked {cfg : ResolverConfig} {t : GoType} {v : Value} (ht : t.kind = .struct)
    (hw : Walked cfg t v) :
    takeSnapshot lib cfg t v = (v, (collectFields cfg t v).2.fields.map (snapshotOf lib v)) := by
  unfold takeSnapshot Walked at *
  simp only [ht, if_true, hw]

theorem snapshotOf_site {fi fi' : FieldInfo} (h : fi.site = fi'.site) (v : Value) :
    snapshotOf lib v fi = snapshotOf lib v fi' := by
  obtain ⟨n, p, t, tag, pn, iv⟩ := fi
  obtain ⟨n', p', t', tag', pn', iv'⟩ := fi'
  simp only [FieldInfo.site, Prod.mk.injEq] at h
  obtain ⟨rfl, rfl, rfl, rfl, rfl, rfl⟩ := h
  rfl

theorem map_snapshotOf_sites : ∀ {F F' : List FieldInfo}, F.map FieldInfo.site = F'.map FieldInfo.site →
    ∀ v, F.map (snapshotOf lib v) = F'.map (snapshotOf lib v)
  | [], [], _, _ => rfl
  | _ :: _, _ :: _, h, v => by
    simp only [List.map_cons, List.cons.injEq] at h ⊢
    exact ⟨snapshotOf_site lib h.1 v, map_snapshotOf_sites h.2 v⟩

/-- takeSnapshot sees only the shape of the configuration, not the providers' answers. -/
theorem takeSnapshot_sameShape {c c' : ResolverConfig} (h : c.SameShape c') (t : GoType) (v : Value) :
    takeSnapshot lib c t v = takeSnapshot lib c' t v := by
  have := (collectFields_sameShape h t).1 v
  unfold takeSnapshot
  split
  · simp only [Prod.mk.injEq, this.1, true_and]
    exact map_snapshotOf_sites lib (congrArg Prod.fst this.2) _
  · rfl

end Shape

/-- The bytes of snapshot entries of the same field decide whether they are equal. -/
theorem snapshotOf_eq_iff (lib : Lib) (v w : Value) (fi : FieldInfo) :
    snapshotOf lib v fi = snapshotOf lib w fi ↔ (snapshotOf lib v fi).raw = (snapshotOf lib w fi).raw := by
  constructor
  · intro h; rw [h]
  · intro h; simp only [snapshotOf] at h ⊢; rw [h]

/-- diffEvents: the positions whose bytes differ, in order, with the old and new bytes. -/
theorem diffEvents_eq : ∀ os ns : List FieldSnapshot, diffEvents os ns =
    ((os.zip ns).filter fun p => p.1.raw != p.2.raw).map fun p =>
      ⟨p.2.fieldName, p.2.key, p.2.providerName, p.1.raw, p.2.raw⟩
  | [], _ => rfl
  | _ :: _, [] => rfl
  | o :: os, n :: ns => by
    by_cases h : o.raw = n.raw <;> simp [diffEvents, h, diffEvents_eq os ns, List.filter_cons]

theorem diffEvents_map_nil {lib : Lib} {v w : Value} :
    ∀ {F : List FieldInfo}, diffEvents (F.map (snapshotOf lib v)) (F.map (snapshotOf lib w)) = [] →
      F.map (snapshotOf lib v) = F.map (snapshotOf lib w)
  | [], _ => rfl
  | fi :: F, h => by
    simp only [List.map_cons, diffEvents] at h ⊢
    split at h
    · exact congrArg₂ _ ((snapshotOf_eq_iff lib v w fi).mpr ‹_›) (diffEvents_map_nil h)
    · simp at h

/-- The events sent are some of the events, in order. -/
theorem sendAll_sublist (cap : Nat) : ∀ (ds : List Nat) (q es : List ChangeEvent),
    List.Sublist (sendAll cap ds q es).2 es
  | _, _, [] => .slnil
  | ds, q, e :: es => by
    unfold sendAll
    dsimp only
    split
    · exact (sendAll_sublist cap _ _ es).cons₂ e
    · exact (sendAll_sublist cap _ _ es).cons e

/-- With room in the channel for all of them, every event is sent. -/
theorem sendAll_all (cap : Nat) : ∀ (ds : List Nat) (q es : List ChangeEvent),
    q.length + es.length ≤ cap → (sendAll cap ds q es).2 = es
  | _, _, [], _ => rfl
  | ds, q, e :: es, h => by
    unfold sendAll
    dsimp only
    have hd : (q.drop (ds.headD 0)).length ≤ q.length := by simp
    simp only [List.length_cons] at h
    rw [if_pos (by omega)]
    exact congrArg (e :: ·) (sendAll_all cap _ _ es (by simp; omega))

theorem drop_append_min {α : Type} (q y : List α) (k : Nat) :
    q.drop k ++ y = (q ++ y).drop (min k q.length) := by
  rw [List.drop_append_eq_append_drop, Nat.sub_eq_zero_of_le (Nat.min_le_right _ _), List.drop_zero]
  rcases Nat.le_total k q.length with h | h
  · rw [Nat.min_eq_left h]
  · rw [Nat.min_eq_right h, List.drop_eq_nil_of_le h, List.drop_eq_nil_of_le le_rfl]

/-- The channel afterwards holds the old buffer with the sent events appended, less a prefix
the reader took, of at most the events it asked for. -/
theorem sendAll_queue (cap : Nat) : ∀ (ds : List Nat) (q es : List ChangeEvent),
    ∃ d ≤ ds.foldr (· + ·) 0, (sendAll cap ds q es).1 = (q ++ (sendAll cap ds q es).2).drop d
  | _, q, [] => ⟨0, Nat.zero_le _, by simp [sendAll]⟩
  | ds, q, e :: es => by
    have hsum : ds.headD 0 + ds.tail.foldr (· + ·) 0 = ds.foldr (· + ·) 0 := by cases ds <;> rfl
    have hm := Nat.min_le_left (ds.headD 0) q.length
    unfold sendAll
    dsimp only
    split
    · obtain ⟨d, hd, h⟩ := sendAll_queue cap ds.tail (q.drop (ds.headD 0) ++ [e]) es
      refine ⟨_, Nat.add_le_add hm hd |>.trans_eq hsum, ?_⟩
      rw [h, List.append_assoc, List.singleton_append, drop_append_min, List.drop_drop, Nat.add_comm]
    · obtain ⟨d, hd, h⟩ := sendAll_queue cap ds.tail (q.drop (ds.headD 0)) es
      refine ⟨_, Nat.add_le_add hm hd |>.trans_eq hsum, ?_⟩
      rw [h, drop_append_min, List.drop_drop, Nat.add_comm]

theorem copyFields_self (tmp : Value) : ∀ (F : List FieldInfo) (dst : Value),
    copyFields tmp F F dst = F.foldl (copyStep tmp) dst
  | [], _ => rfl
  | _ :: F, _ => copyFields_self tmp F _

theorem copy_get_disjoint (tmp : Value) : ∀ (F : List FieldInfo) (dst : Value) (q : Path),
    (∀ fi ∈ F, Path.Disjoint fi.path q) → (F.foldl (copyStep tmp) dst).get q = dst.get q
  | [], _, _, _ => rfl
  | fi :: F, dst, q, h => by
    rw [List.foldl_cons, copy_get_disjoint tmp F _ q (fun fi' h' => h fi' (.tail _ h')), copyStep,
      Value.get_set_disjoint _ _ _ _ (h fi (.head _))]

/-- After the copy, each field of a list of distinct existing fields holds `tmp`'s value. -/
theorem copy_get (tmp : Value) : ∀ (F : List FieldInfo) (dst : Value),
    (F.map (·.path)).Pairwise Path.Disjoint → (∀ fi ∈ F, (dst.get fi.path).isSome) →
      ∀ fi ∈ F, (F.foldl (copyStep tmp) dst).get fi.path = some ((tmp.get fi.path).getD fi.type.zero)
  | [], _, _, _, _, h => nomatch h
  | fi₀ :: F, dst, hp, hx, fi, hfi => by
    simp only [List.map_cons, List.pairwise_cons, List.mem_map] at hp
    rw [List.foldl_cons]
    rcases List.mem_cons.mp hfi with rfl | hfi
    · rw [copy_get_disjoint tmp F _ _ fun fi' h' => (hp.1 _ ⟨fi', h', rfl⟩).symm, copyStep,
        Value.get_set_self _ _ _ (hx _ (.head _))]
    · refine copy_get tmp F _ hp.2 (fun fi' h' => ?_) fi hfi
      rw [copyStep, Value.get_set_disjoint _ _ _ _ (hp.1 _ ⟨fi', h', rfl⟩)]
      exact hx fi' (.tail _ h')


theorem copy_walked {cfg : ResolverConfig} {t : GoType} (tmp : Value) :
    ∀ (F : List FieldInfo) (dst : Value), Walked cfg t dst →
      (∀ fi ∈ F, fi ∈ (collectFields cfg t dst).2.fields) → Walked cfg t (F.foldl (copyStep tmp) dst)
  | [], _, hw, _ => hw
  | fi :: F, dst, hw, hF => by
    have h1 := (walked_set cfg t).1 dst hw fi (hF fi (.head _)) [] ((tmp.get fi.path).getD fi.type.zero)
    rw [List.append_nil] at h1
    refine copy_walked tmp F _ h1 fun fi' h' => ?_
    rw [(collectFields_found_eq cfg t).1 _ dst]
    exact hF fi' (.tail _ h')

section Invariant
variable (lib : Lib) (t : GoType)

/-- pollLoop's invariant between cycles: the walk leaves the live record as it is, and the
snapshot is takeSnapshot of it. -/
structure Synced (cfg : ResolverConfig) (s : WatchState) : Prop where
  walked : Walked cfg t s.live
  snapshot : s.snapshot = (takeSnapshot lib cfg t s.live).2

variable {lib t}

theorem watch_synced {cfg : ResolverConfig} {v : Value} {s : WatchState} (ht : t.kind = .struct)
    (h : watch lib t cfg v = some s) : Synced lib t cfg s := by
  have hw := resolveFrom_walked lib cfg ht (fun specs => sharedResult (storeResults (id specs))) v
  unfold watch at h
  dsimp only at h
  split at h
  · cases h
    rw [resolve, resolveWith] at *
    rw [takeSnapshot_walked lib ht hw]
    exact ⟨hw, by rw [takeSnapshot_walked lib ht hw]⟩
  · cases h

/-- poll on a synced state whose shadow Resolve succeeds: with `F` the fields the walk
collects, the shadow's snapshot is compared with the live one, and the copy sets each field
of `F` to the shadow's value. -/
theorem poll_synced (cap : Nat) {cfg : ResolverConfig} {s : WatchState} {k : Tick} (ht : t.kind = .struct)
    (hs : Synced lib t cfg s) (hk : k.cfg.SameShape cfg) (hr : (resolve lib k.cfg t t.zero).2 = []) :
    let tmp := (resolve lib k.cfg t t.zero).1
    let F := (collectFields k.cfg t tmp).2.fields
    let events := diffEvents (F.map (snapshotOf lib s.live)) (F.map (snapshotOf lib tmp))
    s.snapshot = F.map (snapshotOf lib s.live) ∧
      poll lib t cap k s =
        if events = [] then (s, some (F.map (snapshotOf lib tmp)), [])
        else
          let live := F.foldl (copyStep tmp) s.live
          let sent := sendAll cap k.drains s.queue events
          ({ s with live := live, queue := sent.1 }, some (F.map (snapshotOf lib tmp)),
            .write live :: sent.2.map .send) := by
  intro tmp F events
  have htmp : Walked k.cfg t tmp :=
    resolveFrom_walked lib k.cfg ht (fun specs => sharedResult (storeResults (id specs))) t.zero
  have hlive : Walked k.cfg t s.live := (walked_sameShape hk).mpr hs.walked
  have hF : (collectFields k.cfg t s.live).2.fields = F := by
    rw [(collectFields_found_eq k.cfg t).1 s.live tmp]
  have hsnap : s.snapshot = F.map (snapshotOf lib s.live) := by
    rw [hs.snapshot, ← takeSnapshot_sameShape lib hk, takeSnapshot_walked lib ht hlive, hF]
  refine ⟨hsnap, ?_⟩
  unfold poll
  simp only [hr, ne_eq, not_true_eq_false, if_false, takeSnapshot_walked lib ht htmp, hsnap]
  split
  · rfl
  · rw [show collectFields k.cfg t tmp = (tmp, (collectFields k.cfg t tmp).2) from
      Prod.ext htmp rfl, show collectFields k.cfg t s.live = (s.live, (collectFields k.cfg t s.live).2)
      from Prod.ext hlive rfl]
    simp only [hF, copyFields_self]

/-- After the copy every collected field of the live record holds the shadow's value. -/
theorem copy_get_eq {cfg : ResolverConfig} {tmp dst : Value} (htmp : Walked cfg t tmp)
    (hdst : Walked cfg t dst) :
    ∀ fi ∈ (collectFields cfg t tmp).2.fields,
      (((collectFields cfg t tmp).2.fields).foldl (copyStep tmp) dst).get fi.path = tmp.get fi.path := by
  intro fi hfi
  have hF := (collectFields_found_eq cfg t).1 dst tmp
  rw [copy_get tmp _ dst ((collectFields_disjoint cfg t).1 tmp)
    (fun fi' h' => (collectFields_get_isSome cfg t).1 dst hdst fi' (hF ▸ h')) fi hfi]
  obtain ⟨y, hy⟩ := Option.isSome_iff_exists.mp ((collectFields_get_isSome cfg t).1 tmp htmp fi hfi)
  rw [hy]; rfl

/-- After the copy the live record renders as the shadow does. -/
theorem copy_snapshot {cfg : ResolverConfig} {tmp dst : Value} (ht : t.kind = .struct)
    (htmp : Walked cfg t tmp) (hdst : Walked cfg t dst) :
    let F := (collectFields cfg t tmp).2.fields
    takeSnapshot lib cfg t (F.foldl (copyStep tmp) dst) =
      (F.foldl (copyStep tmp) dst, F.map (snapshotOf lib tmp)) := by
  intro F
  have hF := (collectFields_found_eq cfg t).1 dst tmp
  have hw := copy_walked tmp F dst hdst fun fi h => hF ▸ h
  rw [takeSnapshot_walked lib ht hw, (collectFields_found_eq cfg t).1 _ tmp]
  refine congrArg _ (List.map_congr_left fun fi hfi => ?_)
  simp only [snapshotOf, copy_get_eq htmp hdst fi hfi]

/-- pollLoop's turn on a synced state: nothing happens unless the shadow Resolve succeeds
and its snapshot differs somewhere; then the collected fields are copied from the shadow,
the snapshot becomes the shadow's, and the events are sent after the write. -/
theorem step_synced_eq (cap : Nat) {cfg : ResolverConfig} {s : WatchState} {k : Tick}
    (ht : t.kind = .struct) (hs : Synced lib t cfg s) (hk : k.cfg.SameShape cfg) :
    let r := resolve lib k.cfg t t.zero
    let F := (collectFields k.cfg t r.1).2.fields
    let new := F.map (snapshotOf lib r.1)
    let events := diffEvents s.snapshot new
    step lib t cap k s =
      if r.2 = [] ∧ events ≠ [] then
        let live := F.foldl (copyStep r.1) s.live
        let sent := sendAll cap k.drains s.queue events
        (⟨live, new, sent.1⟩, .write live :: sent.2.map .send)
      else (s, []) := by
  dsimp only
  by_cases hr : (resolve lib k.cfg t t.zero).2 = []
  · obtain ⟨hsnap, hpoll⟩ := poll_synced cap ht hs hk hr
    unfold step
    rw [hpoll, ← hsnap]
    simp only [hr, true_and]
    generalize resolve lib k.cfg t t.zero = R at *
    generalize (collectFields k.cfg t R.1).2.fields = F at *
    by_cases he : diffEvents s.snapshot (F.map (snapshotOf lib R.1)) = []
    · have := diffEvents_map_nil (hsnap ▸ he)
      rw [← hsnap] at this
      simp only [he, if_true, ne_eq, not_true_eq_false, if_false]
      cases s
      simp only [WatchState.mk.injEq, and_true, Prod.mk.injEq]
      split <;> simp_all
    · simp only [he, if_false, ne_eq, not_false_eq_true, if_true]
      congr 2
      split
      · rename_i hn
        rw [List.map_eq_nil_iff] at hn
        simp [hsnap, hn]
      · rfl
  · unfold step poll
    simp [hr]

theorem step_synced (cap : Nat) {cfg : ResolverConfig} {s : WatchState} {k : Tick}
    (ht : t.kind = .struct) (hs : Synced lib t cfg s) (hk : k.cfg.SameShape cfg) :
    Synced lib t cfg (step lib t cap k s).1 := by
  rw [step_synced_eq cap ht hs hk]
  split
  · have htmp : Walked k.cfg t (resolve lib k.cfg t t.zero).1 :=
      resolveFrom_walked lib k.cfg ht _ t.zero
    have hlive : Walked k.cfg t s.live := (walked_sameShape hk).mpr hs.walked
    refine ⟨(walked_sameShape hk).mp (copy_walked _ _ _ hlive fun fi h => ?_), ?_⟩
    · rwa [(collectFields_found_eq k.cfg t).1 _ (resolve lib k.cfg t t.zero).1]
    · dsimp only
      rw [← takeSnapshot_sameShape lib hk, copy_snapshot ht htmp hlive]
  · exact hs

/-- After a cycle whose shadow Resolve succeeds, pollLoop holds the shadow's snapshot. -/
theorem step_snapshot (cap : Nat) {cfg : ResolverConfig} {s : WatchState} {k : Tick}
    (ht : t.kind = .struct) (hs : Synced lib t cfg s) (hk : k.cfg.SameShape cfg)
    (hr : (resolve lib k.cfg t t.zero).2 = []) :
    (step lib t cap k s).1.snapshot = (collectFields k.cfg t (resolve lib k.cfg t t.zero).1).2.fields.map
      (snapshotOf lib (resolve lib k.cfg t t.zero).1) := by
  have hsnap := (poll_synced cap ht hs hk hr).1
  rw [step_synced_eq cap ht hs hk]
  dsimp only
  split
  · rfl
  · rename_i he
    simp only [hr, true_and, ne_eq, not_not] at he
    rw [hsnap] at he ⊢
    exact diffEvents_map_nil he

theorem run_synced (cap : Nat) {cfg : ResolverConfig} (ht : t.kind = .struct) :
    ∀ (ks : List Tick) (s : WatchState), (∀ k ∈ ks, k.cfg.SameShape cfg) → Synced lib t cfg s →
      Synced lib t cfg (run lib t cap ks s)
  | [], _, _, hs => hs
  | k :: ks, _, hk, hs =>
    run_synced cap ht ks _ (fun k' h' => hk k' (.tail _ h'))
      (step_synced cap ht hs (hk k (.head _)))

/-- The watcher's state after Watch and any cycles whose providers answer as they like. -/
theorem reachable_synced (cap : Nat) {cfg : ResolverConfig} {v : Value} {s₀ : WatchState}
    (ht : t.kind = .struct) (h₀ : watch lib t cfg v = some s₀) {ks : List Tick}
    (hk : ∀ k ∈ ks, k.cfg.SameShape cfg) : Synced lib t cfg (run lib t cap ks s₀) :=
  run_synced cap ht ks s₀ hk (watch_synced ht h₀)

/-- Over any run of the watcher, the snapshot pollLoop holds is takeSnapshot of the live
record, and each next cycle does what pollLoop promises: a failed shadow Resolve changes
nothing and emits nothing; a successful one has one event per position whose bytes
differ, in walker order, with the old and the new bytes, leaves the new bytes in the live
record, and sends some of the events in order after its write, all of them when the
channel has room: the channel then holds its old buffer with the sent events appended, less
a prefix the reader took. -/
theorem watch_snapshot_tracks_live (cap : Nat) (cfg : ResolverConfig) (v : Value)
    (s₀ : WatchState) (ht : t.kind = .struct) (h₀ : watch lib t cfg v = some s₀)
    (ks : List Tick) (k : Tick) (hk : ∀ k' ∈ k :: ks, k'.cfg.SameShape cfg) :
    let s := run lib t cap ks s₀
    let r := resolve lib k.cfg t t.zero
    let new := (takeSnapshot lib k.cfg t r.1).2
    let events := diffEvents s.snapshot new
    let s' := step lib t cap k s
    s.snapshot = (takeSnapshot lib cfg t s.live).2 ∧
      (r.2 ≠ [] → s' = (s, [])) ∧
      (r.2 = [] →
        events = ((s.snapshot.zip new).filter fun p => p.1.raw != p.2.raw).map
          (fun p => ⟨p.2.fieldName, p.2.key, p.2.providerName, p.1.raw, p.2.raw⟩) ∧
        s'.1.snapshot = new ∧ (takeSnapshot lib cfg t s'.1.live).2 = new ∧
        ∃ sent, List.Sublist sent events ∧ (s.queue.length + events.length ≤ cap → sent = events) ∧
          (∃ d ≤ k.drains.foldr (· + ·) 0, s'.1.queue = (s.queue ++ sent).drop d) ∧
          s'.2 = if events = [] then [] else .write s'.1.live :: sent.map .send) := by
  dsimp only
  have hk' := hk k (.head _)
  have hs := reachable_synced cap ht h₀ fun k' h' => hk k' (.tail _ h')
  have htmp : Walked k.cfg t (resolve lib k.cfg t t.zero).1 := resolveFrom_walked lib k.cfg ht _ t.zero
  have hsnap' := step_snapshot cap ht hs hk'
  have hs' := step_synced cap ht hs hk'
  rw [takeSnapshot_walked lib ht htmp]
  rw [step_synced_eq cap ht hs hk'] at hsnap' hs' ⊢
  dsimp only at hsnap' hs' ⊢
  generalize run lib t cap ks s₀ = s at *
  generalize resolve lib k.cfg t t.zero = R at *
  generalize (collectFields k.cfg t R.1).2.fields = F at *
  refine ⟨hs.snapshot, fun hr => by simp only [hr, false_and, if_false], fun hr => ?_⟩
  refine ⟨diffEvents_eq _ _, hsnap' hr, hs'.snapshot ▸ hsnap' hr, ?_⟩
  by_cases he : diffEvents s.snapshot (F.map (snapshotOf lib R.1)) = []
  · simp only [hr, he, true_and, ne_eq, not_true_eq_false, if_false, if_true]
    exact ⟨[], .slnil, fun _ => rfl, ⟨0, Nat.zero_le _, by simp⟩, trivial⟩
  · obtain ⟨d, hd, hq⟩ := sendAll_queue cap k.drains s.queue
      (diffEvents s.snapshot (F.map (snapshotOf lib R.1)))
    simp only [hr, he, true_and, ne_eq, not_false_eq_true, if_true, if_false]
    exact ⟨_, sendAll_sublist cap k.drains _ _, sendAll_all cap k.drains _ _, ⟨d, hd, hq⟩, rfl⟩

/-- A poll cycle of a watcher writes the live record only at the fields collectFields
collects, each set to the shadow record's value at the same path. This rests on two facts
about collectFields: it finds the same fields, paths, tags and providers in any two values
of a type, and it allocates nothing in a record that a walk has visited, as the live
record has been. -/
theorem poll_writes_only_collected (cap : Nat) (cfg : ResolverConfig) (v : Value)
    (s₀ : WatchState) (ht : t.kind = .struct) (h₀ : watch lib t cfg v = some s₀)
    (ks : List Tick) (k : Tick) (hk : ∀ k' ∈ k :: ks, k'.cfg.SameShape cfg) :
    let s := run lib t cap ks s₀
    let r := resolve lib k.cfg t t.zero
    let F := (collectFields k.cfg t r.1).2.fields
    (∀ v w, (collectFields k.cfg t v).2 = (collectFields k.cfg t w).2) ∧
      (∀ v, Walked k.cfg t (collectFields k.cfg t v).1) ∧ Walked k.cfg t s.live ∧
      (step lib t cap k s).1.live =
        if r.2 = [] ∧ diffEvents s.snapshot (F.map (snapshotOf lib r.1)) ≠ [] then
          F.foldl (fun live fi => live.set fi.path ((r.1.get fi.path).getD fi.type.zero)) s.live
        else s.live := by
  intro s r F
  have hs : Synced lib t cfg s := reachable_synced cap ht h₀ fun k' h' => hk k' (.tail _ h')
  refine ⟨(collectFields_found_eq k.cfg t).1, (collectFields_idem k.cfg t).1,
    (walked_sameShape (hk k (.head _))).mpr hs.walked, ?_⟩
  rw [step_synced_eq cap ht hs (hk k (.head _))]
  split <;> rfl

/-- After a successful cycle the live record renders field for field as the shadow does.
When the cycle saw a difference every collected field of the live record holds the shadow's
value; when it saw none the live record is left as it was. -/
theorem poll_live_renders_as_shadow (cap : Nat) (cfg : ResolverConfig) (v : Value)
    (s₀ : WatchState) (ht : t.kind = .struct) (h₀ : watch lib t cfg v = some s₀)
    (ks : List Tick) (k : Tick) (hk : ∀ k' ∈ k :: ks, k'.cfg.SameShape cfg) :
    let s := run lib t cap ks s₀
    let r := resolve lib k.cfg t t.zero
    let s' := (step lib t cap k s).1
    r.2 = [] →
      (takeSnapshot lib k.cfg t s'.live).2 = (takeSnapshot lib k.cfg t r.1).2 ∧
      (diffEvents s.snapshot (takeSnapshot lib k.cfg t r.1).2 ≠ [] →
        ∀ fi ∈ (collectFields k.cfg t r.1).2.fields, s'.live.get fi.path = r.1.get fi.path) ∧
      (diffEvents s.snapshot (takeSnapshot lib k.cfg t r.1).2 = [] → s'.live = s.live) := by
  dsimp only
  intro hr
  have hk' := hk k (.head _)
  have hs := reachable_synced cap ht h₀ fun k' h' => hk k' (.tail _ h')
  have htmp : Walked k.cfg t (resolve lib k.cfg t t.zero).1 := resolveFrom_walked lib k.cfg ht _ t.zero
  have hlive := (walked_sameShape hk').mpr hs.walked
  rw [takeSnapshot_sameShape lib hk', ← (step_synced cap ht hs hk').snapshot,
    step_snapshot cap ht hs hk' hr, takeSnapshot_walked lib ht htmp]
  refine ⟨rfl, fun he fi hfi => ?_, fun he => ?_⟩ <;> rw [step_synced_eq cap ht hs hk']
  · simp only [hr, true_and, he, ne_eq, not_false_eq_true, if_true]
    exact copy_get_eq htmp hlive fi hfi
  · simp only [hr, true_and, he, ne_eq, not_true_eq_false, if_false]

end Invariant

/-! ### A Versioned field whose Previous slot rotates -/

/-- A record with one Versioned[string] field. -/
def versionedRecord : GoType :=
  .struct [(⟨"V", true, false, some (ascii "k")⟩, versionedType .string)]

/-- A default provider whose current value stays "a" and whose previous value is `prev`. -/
def rotatingConfig (prev : String) : ResolverConfig :=
  newResolver [withDefault ⟨fun _ => .ok (ascii "a"), some fun _ _ => .ok (ascii prev)⟩]

/-- The watcher after Watch with previous value "x". -/
def versionedState : WatchState :=
  ⟨.struct [.struct [.str (ascii "a"), .str (ascii "x")]], [⟨"V", ascii "k", ascii "default", ascii "a"⟩], []⟩

theorem watch_snapshot_tracks_live_versioned :
    versionedRecord.kind = .struct ∧
      watch Lib.stringsOnly versionedRecord (rotatingConfig "x") versionedRecord.zero =
        some versionedState ∧
      (run Lib.stringsOnly versionedRecord 1 [] versionedState).snapshot =
        (takeSnapshot Lib.stringsOnly (rotatingConfig "x") versionedRecord
          (run Lib.stringsOnly versionedRecord 1 [] versionedState).live).2 :=
  ⟨rfl, rfl, (@watch_snapshot_tracks_live Lib.stringsOnly versionedRecord 1 (rotatingConfig "x") versionedRecord.zero versionedState
    rfl rfl [] ⟨rotatingConfig "y", []⟩ fun _ h => by
      rw [List.mem_singleton.mp h]; exact ⟨fun _ => rfl, rfl⟩).1⟩

theorem poll_writes_only_collected_versioned :
    versionedRecord.kind = .struct ∧
      watch Lib.stringsOnly versionedRecord (rotatingConfig "x") versionedRecord.zero =
        some versionedState ∧
      Walked (rotatingConfig "y") versionedRecord versionedState.live :=
  ⟨rfl, rfl, (@poll_writes_only_collected Lib.stringsOnly versionedRecord 1 (rotatingConfig "x") versionedRecord.zero
    versionedState rfl rfl [] ⟨rotatingConfig "y", []⟩ fun _ h => by
      rw [List.mem_singleton.mp h]; exact ⟨fun _ => rfl, rfl⟩).2.2.1⟩

/-- When the previous value rotates from "x" to "y", a cycle's shadow Resolve succeeds
with Previous "y", yet the live record keeps Previous "x": the field renders by its
Current slot alone, so the cycle sees no difference and copies nothing. -/
theorem versioned_previous_not_copied :
    watch Lib.stringsOnly versionedRecord (rotatingConfig "x") versionedRecord.zero =
        some versionedState ∧
      resolve Lib.stringsOnly (rotatingConfig "y") versionedRecord versionedRecord.zero =
        (.struct [.struct [.str (ascii "a"), .str (ascii "y")]], []) ∧
      (step Lib.stringsOnly versionedRecord 1 ⟨rotatingConfig "y", []⟩ versionedState).1.live =
        .struct [.struct [.str (ascii "a"), .str (ascii "x")]] :=
  ⟨rfl, rfl, rfl⟩

theorem poll_live_renders_as_shadow_versioned :
    versionedRecord.kind = .struct ∧
      watch Lib.stringsOnly versionedRecord (rotatingConfig "x") versionedRecord.zero =
        some versionedState ∧
      (resolve Lib.stringsOnly (rotatingConfig "y") versionedRecord versionedRecord.zero).2 = [] ∧
      (takeSnapshot Lib.stringsOnly (rotatingConfig "y") versionedRecord
          (step Lib.stringsOnly versionedRecord 1 ⟨rotatingConfig "y", []⟩ versionedState).1.live).2 =
        (takeSnapshot Lib.stringsOnly (rotatingConfig "y") versionedRecord
          (resolve Lib.stringsOnly (rotatingConfig "y") versionedRecord versionedRecord.zero).1).2 ∧
      (step Lib.stringsOnly versionedRecord 1 ⟨rotatingConfig "y", []⟩ versionedState).1.live =
        versionedState.live :=
  have h := @poll_live_renders_as_shadow Lib.stringsOnly versionedRecord 1 (rotatingConfig "x")
    versionedRecord.zero versionedState rfl rfl [] ⟨rotatingConfig "y", []⟩ (fun _ h => by
      rw [List.mem_singleton.mp h]; exact ⟨fun _ => rfl, rfl⟩) rfl
  ⟨rfl, rfl, rfl, h.1, h.2.2 rfl⟩

end GoSecrets
