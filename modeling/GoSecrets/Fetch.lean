import GoSecrets.Resolve
import Mathlib.Data.List.Nodup

/-! The fetch phase of Resolver.Resolve (resolver.go) as goroutines, one step at a time, in any
interleaving: the main goroutine's spawns and `wg.Wait()`, and each fetch goroutine's steps. -/
namespace GoSecrets.Fetch

/-- Where a fetch goroutine stands: at `sem <- struct{}{}`, in its provider call, at the
store of its result, at its deferred `<-sem`, at its deferred `wg.Done()`, or exited. -/
inductive GPc where
  | acquire
  | call
  | store
  | release
  | finish
  | exited
deriving DecidableEq, Repr

/-- Where the main goroutine stands: in its spawning loop at fetch `k`, at `wg.Wait()`, or in
phase 3. -/
inductive MainPc where
  | spawn (k : Nat)
  | wait
  | assign
deriving DecidableEq, Repr

/-- The goroutine of fetch `k` is `gs[k]`; `sem` is `len(sem)`, `wg` the WaitGroup's
counter, `stored` the fetches whose results are in the map, in the order they were stored. -/
structure St where
  main : MainPc
  gs : List GPc
  sem : Nat
  wg : Nat
  stored : List Nat
deriving DecidableEq, Repr

/-- A scheduler choice: the next step of the main goroutine or of the goroutine of fetch `k`. -/
inductive Ev where
  | main
  | go (k : Nat)
deriving DecidableEq, Repr

def GPc.holding : GPc → Bool
  | .call | .store | .release => true
  | _ => false

def GPc.calling : GPc → Bool
  | .call => true
  | _ => false

def GPc.running : GPc → Bool
  | .exited => false
  | _ => true

/-- Past the store of its result. -/
def GPc.stored : GPc → Bool
  | .release | .finish | .exited => true
  | _ => false

section Step
variable (specs : List FetchSpec) (cap : Nat)

/-- The goroutine of fetch `k`'s next step from `pc`. The send on `sem` blocks while the
channel is full; a spec asking a version of a provider without versions makes no call. -/
def St.goStep (s : St) (k : Nat) : GPc → St
  | .acquire =>
    if s.sem < cap then
      { s with sem := s.sem + 1,
               gs := s.gs.set k (if (specs[k]?.bind FetchSpec.call?).isSome then .call else .store) }
    else s
  | .call => { s with gs := s.gs.set k .store }
  | .store => { s with gs := s.gs.set k .release, stored := s.stored ++ [k] }
  | .release => { s with gs := s.gs.set k .finish, sem := s.sem - 1 }
  | .finish => { s with gs := s.gs.set k .exited, wg := s.wg - 1 }
  | .exited => s

/-- The main goroutine's next step: spawn the goroutine of the next fetch, or go on to
`wg.Wait()`, which blocks until the counter is zero. -/
def St.mainStep (s : St) : MainPc → St
  | .spawn k =>
    if k < specs.length then { s with main := .spawn (k + 1), gs := s.gs ++ [.acquire], wg := s.wg + 1 }
    else { s with main := .wait }
  | .wait => if s.wg = 0 then { s with main := .assign } else s
  | .assign => s

def St.next (s : St) : Ev → St
  | .main => s.mainStep specs s.main
  | .go k =>
    match s.gs[k]? with
    | some pc => s.goStep specs cap k pc
    | none => s

def St.run : St → List Ev → St
  | s, [] => s
  | s, e :: es => (s.next specs cap e).run es

end Step

/-- The start of the fetch phase: nothing spawned, `sem` empty. -/
def St.init : St := ⟨.spawn 0, [], 0, 0, []⟩

/-! ### Counting goroutines -/

theorem countP_set_add {α : Type} (p : α → Bool) {x y : α} :
    ∀ {l : List α} {k : Nat}, l[k]? = some y →
      (l.set k x).countP p + (if p y then 1 else 0) = l.countP p + (if p x then 1 else 0)
  | a :: l, 0, h => by
    obtain rfl : a = y := by simpa using h
    simp only [List.set_cons_zero, List.countP_cons]
    omega
  | a :: l, k + 1, h => by
    have := countP_set_add p (x := x) (l := l) (k := k) (by simpa using h)
    simp only [List.set_cons_succ, List.countP_cons]
    omega

theorem getD_set_stored {l : List GPc} {k j : Nat} {pc pc' : GPc} (hk : l[k]? = some pc) :
    ((l.set k pc')[j]?.getD .acquire).stored =
      if k = j then pc'.stored else (l[j]?.getD .acquire).stored := by
  have hlt : k < l.length := (List.getElem?_eq_some_iff.mp hk).1
  by_cases hkj : k = j
  · subst hkj
    simp [List.getElem?_set_self hlt]
  · simp [List.getElem?_set_ne hkj, hkj]

/-! ### What every schedule keeps -/

section Inv
variable {specs : List FetchSpec} {cap : Nat} {s : St}

variable (specs cap) in
/-- The main goroutine has spawned one goroutine per fetch before `wg.Wait()`; `sem` holds
one token per goroutine between its send and its `<-sem`, at most `cap`; the WaitGroup
counts the goroutines not yet exited; the results map holds, once each, the results of the
goroutines past their store; phase 3 starts with the counter at zero. -/
structure St.Inv (s : St) : Prop where
  spawn_le : ∀ k, s.main = .spawn k → k ≤ specs.length ∧ s.gs.length = k
  spawned : s.main = .wait ∨ s.main = .assign → s.gs.length = specs.length
  sem_eq : s.sem = s.gs.countP GPc.holding
  sem_le : s.sem ≤ cap
  wg_eq : s.wg = s.gs.countP GPc.running
  stored_nodup : s.stored.Nodup
  stored_iff : ∀ k, k ∈ s.stored ↔ (s.gs[k]?.getD .acquire).stored = true
  assign_done : s.main = .assign → s.wg = 0

theorem St.Inv.init : St.init.Inv specs cap where
  spawn_le k h := by cases h; exact ⟨Nat.zero_le _, rfl⟩
  spawned h := by rcases h with h | h <;> cases h
  sem_eq := rfl
  sem_le := Nat.zero_le _
  wg_eq := rfl
  stored_nodup := .nil
  stored_iff k := by simp [St.init, GPc.stored]
  assign_done h := by cases h

theorem St.Inv.running_pos (h : s.Inv specs cap) {k : Nat} {pc : GPc} (hk : s.gs[k]? = some pc)
    (hr : pc.running = true) : 0 < s.wg :=
  h.wg_eq ▸ List.countP_pos_iff.mpr ⟨pc, List.getElem?_mem hk, hr⟩

theorem St.Inv.move (h : s.Inv specs cap) {k : Nat} {pc pc' : GPc} (hk : s.gs[k]? = some pc)
    (hr : pc.running = true) {sem' wg' : Nat} {stored' : List Nat}
    (hsem : sem' + (if pc.holding then 1 else 0) = s.sem + (if pc'.holding then 1 else 0))
    (hcap : sem' ≤ cap)
    (hwg : wg' + (if pc.running then 1 else 0) = s.wg + (if pc'.running then 1 else 0))
    (hst : pc'.stored = pc.stored ∧ stored' = s.stored ∨
      pc.stored = false ∧ pc'.stored = true ∧ stored' = s.stored ++ [k]) :
    (St.mk s.main (s.gs.set k pc') sem' wg' stored').Inv specs cap where
  spawn_le j hj := by simpa using h.spawn_le j hj
  spawned hm := by simpa using h.spawned hm
  sem_eq := by
    have := countP_set_add GPc.holding (x := pc') hk
    rw [h.sem_eq] at hsem
    dsimp only
    omega
  sem_le := hcap
  wg_eq := by
    have := countP_set_add GPc.running (x := pc') hk
    rw [h.wg_eq] at hwg
    dsimp only
    omega
  stored_nodup := by
    rcases hst with ⟨-, rfl⟩ | ⟨hs, -, rfl⟩
    · exact h.stored_nodup
    · refine List.nodup_append.mpr ⟨h.stored_nodup, List.nodup_singleton k, ?_⟩
      intro j hj hjk
      obtain rfl := List.mem_singleton.mp hjk
      have := (h.stored_iff j).mp hj
      rw [hk] at this
      simp_all
  stored_iff j := by
    dsimp only
    rw [getD_set_stored hk]
    rcases hst with ⟨hs, rfl⟩ | ⟨hs, hs', rfl⟩
    · split
      · subst j
        rw [hs, h.stored_iff k, hk]
        rfl
      · exact h.stored_iff j
    · rw [List.mem_append, List.mem_singleton, h.stored_iff j]
      split
      · subst j
        rw [hk]
        simp [hs, hs']
      · simp [Ne.symm ‹k ≠ j›]
  assign_done hm := absurd (h.assign_done hm) (Nat.ne_of_gt (h.running_pos hk hr))

theorem St.Inv.holding_pos (h : s.Inv specs cap) {k : Nat} {pc : GPc} (hk : s.gs[k]? = some pc)
    (hp : pc.holding = true) : 0 < s.sem :=
  h.sem_eq ▸ List.countP_pos_iff.mpr ⟨pc, List.getElem?_mem hk, hp⟩

theorem St.Inv.goStep (h : s.Inv specs cap) {k : Nat} {pc : GPc} (hk : s.gs[k]? = some pc) :
    (s.goStep specs cap k pc).Inv specs cap := by
  cases pc with
  | acquire =>
    simp only [St.goStep]
    split
    · rename_i hlt
      by_cases hc : (specs[k]?.bind FetchSpec.call?).isSome <;> simp only [hc, if_true, if_false] <;>
        exact h.move hk rfl rfl hlt rfl (.inl ⟨rfl, rfl⟩)
    · exact h
  | call => exact h.move hk rfl rfl h.sem_le rfl (.inl ⟨rfl, rfl⟩)
  | store => exact h.move hk rfl rfl h.sem_le rfl (.inr ⟨rfl, rfl, rfl⟩)
  | release =>
    have := h.holding_pos hk rfl
    exact h.move hk rfl (show s.sem - 1 + 1 = s.sem + 0 by omega) (by have := h.sem_le; omega) rfl
      (.inl ⟨rfl, rfl⟩)
  | finish =>
    have := h.running_pos hk rfl
    exact h.move hk rfl rfl h.sem_le (show s.wg - 1 + 1 = s.wg + 0 by omega) (.inl ⟨rfl, rfl⟩)
  | exited => exact h

theorem St.Inv.mainStep (h : s.Inv specs cap) : (s.mainStep specs s.main).Inv specs cap := by
  cases hm : s.main with
  | spawn k =>
    obtain ⟨hle, hlen⟩ := h.spawn_le k hm
    simp only [St.mainStep]
    split
    · exact {
        spawn_le := fun j hj => by cases hj; simpa [hlen]
        spawned := fun hm' => by rcases hm' with h' | h' <;> cases h'
        sem_eq := by simp [h.sem_eq, GPc.holding]
        sem_le := h.sem_le
        wg_eq := by simp [h.wg_eq, GPc.running]
        stored_nodup := h.stored_nodup
        stored_iff := fun j => by
          rw [h.stored_iff j, List.getElem?_append]
          split
          · rfl
          · rename_i hj
            rw [List.getElem?_eq_none (by omega)]
            cases j - s.gs.length <;> rfl
        assign_done := fun hm' => by cases hm' }
    · exact { h with
        spawn_le := fun j hj => by cases hj
        spawned := fun _ => by dsimp only; omega
        assign_done := fun hm' => by cases hm' }
  | wait =>
    simp only [St.mainStep]
    split
    · exact { h with
        spawn_le := fun j hj => by cases hj
        spawned := fun _ => h.spawned (.inl hm)
        assign_done := fun _ => ‹s.wg = 0› }
    · exact h
  | assign => exact h

/-- Step lemma: every scheduler choice keeps the invariant. -/
theorem St.Inv.next (h : s.Inv specs cap) (e : Ev) : (s.next specs cap e).Inv specs cap := by
  cases e with
  | main => exact h.mainStep
  | go k =>
    simp only [St.next]
    split
    · exact h.goStep ‹_›
    · exact h

/-- Run lemma: the invariant holds after any schedule. -/
theorem St.Inv.run (h : s.Inv specs cap) (es : List Ev) : (s.run specs cap es).Inv specs cap := by
  induction es generalizing s with
  | nil => exact h
  | cons e es ih => exact ih (h.next e)

theorem St.Inv.calling_le (h : s.Inv specs cap) : s.gs.countP GPc.calling ≤ cap :=
  calc s.gs.countP GPc.calling
      ≤ s.gs.countP GPc.holding := List.countP_mono_left fun pc _ => by cases pc <;> decide
    _ = s.sem := h.sem_eq.symm
    _ ≤ cap := h.sem_le

theorem St.Inv.stored_of_assign (h : s.Inv specs cap) (hm : s.main = .assign) :
    ∀ k, k ∈ s.stored ↔ k < specs.length := by
  have hw := h.assign_done hm
  rw [h.wg_eq, List.countP_eq_zero] at hw
  intro k
  rw [h.stored_iff k, ← h.spawned (.inr hm)]
  by_cases hk : k < s.gs.length
  · rw [List.getElem?_eq_getElem hk]
    have := hw _ (List.getElem_mem hk)
    revert this
    cases s.gs[k] <;> simp [GPc.running, GPc.stored, hk]
  · rw [List.getElem?_eq_none (by omega)]
    simp [GPc.stored, hk]

end Inv

/-! ### Progress -/

section Progress
variable {specs : List FetchSpec} {cap : Nat} {s : St}

theorem St.goStep_moves {k : Nat} {pc : GPc} (hk : s.gs[k]? = some pc) (hr : pc.running = true)
    (hpc : pc ≠ .acquire) : s.next specs cap (.go k) ≠ s := by
  have hlt : k < s.gs.length := (List.getElem?_eq_some_iff.mp hk).1
  intro he
  have hg := congrArg (fun s : St => s.gs[k]?) he
  simp only [St.next, hk] at hg
  cases pc <;> simp_all [St.goStep, List.getElem?_set_self hlt, GPc.running]

theorem St.acquire_moves {k : Nat} (hk : s.gs[k]? = some .acquire) (hs : s.sem < cap) :
    s.next specs cap (.go k) ≠ s := by
  have hlt : k < s.gs.length := (List.getElem?_eq_some_iff.mp hk).1
  intro he
  have hg := congrArg (fun s : St => s.gs[k]?) he
  simp only [St.next, hk, St.goStep, if_pos hs, List.getElem?_set_self hlt] at hg
  split at hg <;> simp_all

/-- No reachable state before phase 3 is stuck when `sem` has a slot: some goroutine can
move. -/
theorem St.Inv.progress (h : s.Inv specs cap) (hcap : 1 ≤ cap) (hm : s.main ≠ .assign) :
    ∃ e, s.next specs cap e ≠ s := by
  cases hmain : s.main with
  | spawn k =>
    refine ⟨.main, fun he => ?_⟩
    have := congrArg St.main he
    simp only [St.next, hmain, St.mainStep] at this
    split at this <;> simp_all
  | assign => exact absurd hmain hm
  | wait =>
    by_cases hw : s.wg = 0
    · refine ⟨.main, fun he => ?_⟩
      have := congrArg St.main he
      simp [St.next, hmain, St.mainStep, hw] at this
    · by_cases hmove : ∃ pc ∈ s.gs, pc.running = true ∧ pc ≠ .acquire
      · obtain ⟨pc, hmem, hr, hpc⟩ := hmove
        obtain ⟨k, hk⟩ := List.getElem?_of_mem hmem
        exact ⟨.go k, St.goStep_moves hk hr hpc⟩
      · push_neg at hmove
        obtain ⟨pc, hmem, hr⟩ := List.countP_pos_iff.mp (h.wg_eq ▸ Nat.pos_of_ne_zero hw)
        obtain ⟨k, hk⟩ := List.getElem?_of_mem hmem
        have hsem : s.sem = 0 := by
          rw [h.sem_eq, List.countP_eq_zero]
          intro x hx hh
          have := hmove x hx (by revert hh; cases x <;> decide)
          simp [this, GPc.holding] at hh
        rw [hmove pc hmem (by simpa using hr)] at hk
        exact ⟨.go k, St.acquire_moves hk (by omega)⟩

theorem St.next_all_acquire (hs : ∀ pc ∈ s.gs, pc = .acquire) (e : Ev) :
    ∀ pc ∈ (s.next specs 0 e).gs, pc = .acquire := by
  cases e with
  | main =>
    cases hm : s.main <;> simp only [St.next, hm, St.mainStep]
    · split
      · simpa [or_imp, forall_and] using hs
      · exact hs
    · split <;> exact hs
    · exact hs
  | go k =>
    simp only [St.next]
    split
    · rename_i pc hk
      rw [hs pc (List.getElem?_mem hk)]
      exact hs
    · exact hs

end Progress

/-! ### One Resolve -/

theorem newResolver_parallelism_pos (opts : List ResolverOption) :
    1 ≤ (newResolver opts).parallelism := by
  unfold newResolver
  dsimp only
  split
  · exact Nat.le_succ_of_le (by decide)
  · exact Nat.pos_of_ne_zero ‹_›

/-- Within one Resolve on a resolver NewResolver built, on every schedule of the fetch
goroutines: at most `parallelism` Get or GetVersion calls are in progress, `parallelism` is
at least 1, and in phase 3 every planned fetch has stored its result. -/
theorem resolve_fetch_within_parallelism (opts : List ResolverOption) (specs : List FetchSpec)
    (es : List Ev) :
    let p := (newResolver opts).parallelism
    let s := St.init.run specs p es
    s.gs.countP GPc.calling ≤ p ∧ 1 ≤ p ∧ (s.main = .assign → ∀ k < specs.length, k ∈ s.stored) := by
  have h := (St.Inv.init : St.init.Inv specs (newResolver opts).parallelism).run es
  exact ⟨h.calling_le, newResolver_parallelism_pos opts, fun hm k => (h.stored_of_assign hm k).mpr⟩

/-! ### The results phase 3 reads -/

/-- The results map: each stored fetch's result under the String() of its key, in the order
the goroutines stored them. -/
def St.results (specs : List FetchSpec) (s : St) : Bytes → Option Outcome :=
  storeResults (s.stored.filterMap (specs[·]?))

theorem filterMap_range_getElem? {α : Type} : ∀ l : List α, (List.range l.length).filterMap (l[·]?) = l
  | [] => rfl
  | a :: l => by
    rw [List.length_cons, List.range_succ_eq_map, List.filterMap_cons, List.filterMap_map]
    simp only [List.getElem?_cons_zero, List.getElem?_cons_succ, Function.comp_def]
    exact congrArg (a :: ·) (filterMap_range_getElem? l)

/-- Whatever the schedule, phase 3 reads the results map of the plan stored in plan order:
the one `resolve` reads. -/
theorem fetch_results_eq_plan (fields : List FieldInfo) (cap : Nat) (es : List Ev)
    (hm : (St.init.run (plan fields) cap es).main = .assign) :
    (St.init.run (plan fields) cap es).results (plan fields) = storeResults (plan fields) := by
  have h := (St.Inv.init : St.init.Inv (plan fields) cap).run es
  have hperm : (St.init.run (plan fields) cap es).stored.Perm (List.range (plan fields).length) :=
    (List.perm_ext_iff_of_nodup h.stored_nodup (List.nodup_range _)).mpr fun k => by
      rw [h.stored_of_assign hm k, List.mem_range]
  have hspecs := (filterMap_range_getElem? (plan fields)) ▸ hperm.filterMap fun k => (plan fields)[k]?
  exact storeResults_perm hspecs ((hspecs.map _).nodup_iff.mpr (plan_nodup fields))

theorem fetch_results_eq_plan_at_sign :
    (St.init.run (plan (collectFields atSignConfig atSignRecord (.struct [.str [], .str []])).2.fields) 10
        [.main, .main, .go 0, .go 0, .go 0, .go 0, .go 0, .main]).main = .assign ∧
      (St.init.run (plan (collectFields atSignConfig atSignRecord (.struct [.str [], .str []])).2.fields) 10
        [.main, .main, .go 0, .go 0, .go 0, .go 0, .go 0, .main]).results
          (plan (collectFields atSignConfig atSignRecord (.struct [.str [], .str []])).2.fields) =
        storeResults (plan (collectFields atSignConfig atSignRecord (.struct [.str [], .str []])).2.fields) :=
  ⟨rfl, fetch_results_eq_plan _ 10 [.main, .main, .go 0, .go 0, .go 0, .go 0, .go 0, .main] rfl⟩

/-- Resolve's fetch phase never deadlocks: with a slot in `sem`, every state a schedule reaches
before phase 3 has a step that moves some goroutine. -/
theorem fetch_never_stuck (specs : List FetchSpec) {cap : Nat} (hcap : 1 ≤ cap) (es : List Ev) :
    (St.init.run specs cap es).main = .assign ∨
      ∃ e, (St.init.run specs cap es).next specs cap e ≠ St.init.run specs cap es := by
  by_cases hm : (St.init.run specs cap es).main = .assign
  · exact .inl hm
  · exact .inr (((St.Inv.init : St.init.Inv specs cap).run es).progress hcap hm)

theorem fetch_never_stuck_at_sign :
    1 ≤ 10 ∧ ((St.init.run (plan (collectFields atSignConfig atSignRecord (.struct [.str [], .str []])).2.fields)
        10 [.main, .main, .go 0]).main = .assign ∨
      ∃ e, (St.init.run (plan (collectFields atSignConfig atSignRecord (.struct [.str [], .str []])).2.fields)
        10 [.main, .main, .go 0]).next
          (plan (collectFields atSignConfig atSignRecord (.struct [.str [], .str []])).2.fields) 10 e ≠
        St.init.run (plan (collectFields atSignConfig atSignRecord (.struct [.str [], .str []])).2.fields)
          10 [.main, .main, .go 0]) :=
  ⟨by decide, fetch_never_stuck _ (by decide) _⟩

/-- NewResolver's floor of 1 matters: with a `sem` of capacity 0, no schedule of a nonempty
plan ever reaches phase 3. -/
theorem fetch_stuck_without_slots (specs : List FetchSpec) (hs : specs ≠ []) (es : List Ev) :
    (St.init.run specs 0 es).main ≠ .assign := by
  have hall : ∀ pc ∈ (St.init.run specs 0 es).gs, pc = .acquire := by
    suffices ∀ (t : St), (∀ pc ∈ t.gs, pc = .acquire) → ∀ pc ∈ (t.run specs 0 es).gs, pc = .acquire from
      this _ fun _ h => nomatch h
    induction es with
    | nil => exact fun _ h => h
    | cons e es ih => exact fun t ht => ih _ (St.next_all_acquire ht e)
  have h := (St.Inv.init : St.init.Inv specs 0).run es
  intro hm
  have hw := h.assign_done hm
  rw [h.wg_eq, List.countP_eq_zero] at hw
  have hlen := h.spawned (.inr hm)
  obtain ⟨pc, hpc⟩ := List.exists_mem_of_ne_nil _ (List.ne_nil_of_length_pos (hlen ▸ List.length_pos.mpr hs))
  exact hw pc hpc (by rw [hall pc hpc]; rfl)

theorem fetch_stuck_without_slots_at_sign :
    plan (collectFields atSignConfig atSignRecord (.struct [.str [], .str []])).2.fields ≠ [] ∧
      (St.init.run (plan (collectFields atSignConfig atSignRecord (.struct [.str [], .str []])).2.fields) 0
        [.main, .main, .go 0, .main]).main ≠ .assign :=
  ⟨List.cons_ne_nil _ _, fetch_stuck_without_slots _ (List.cons_ne_nil _ _) _⟩

/-! ### Every schedule is finite -/

section Bound
variable (specs : List FetchSpec) (cap : Nat)

/-- The steps the goroutine at `pc` has left. -/
def GPc.left : GPc → Nat
  | .acquire => 5
  | .call => 4
  | .store => 3
  | .release => 2
  | .finish => 1
  | .exited => 0

/-- The steps the main goroutine has left, five more for each goroutine it has still to
spawn. -/
def MainPc.left : MainPc → Nat
  | .spawn k => 6 * (specs.length - k) + 2
  | .wait => 1
  | .assign => 0

/-- The steps the goroutines at `gs` have left. -/
def GPc.leftAll : List GPc → Nat
  | [] => 0
  | pc :: gs => pc.left + GPc.leftAll gs

/-- The steps left in the fetch phase. -/
def St.left (s : St) : Nat := s.main.left specs + GPc.leftAll s.gs

/-- The steps of a schedule that move some goroutine. -/
def St.moves : St → List Ev → Nat
  | _, [] => 0
  | s, e :: es => (if s.next specs cap e = s then 0 else 1) + (s.next specs cap e).moves es

theorem GPc.leftAll_set_add {x y : GPc} : ∀ {l : List GPc} {k : Nat}, l[k]? = some y →
    GPc.leftAll (l.set k x) + y.left = GPc.leftAll l + x.left
  | a :: l, 0, h => by
    obtain rfl : a = y := by simpa using h
    simp only [List.set_cons_zero, GPc.leftAll]
    omega
  | a :: l, k + 1, h => by
    have := GPc.leftAll_set_add (x := x) (l := l) (k := k) (by simpa using h)
    simp only [List.set_cons_succ, GPc.leftAll]
    omega

theorem GPc.leftAll_concat (x : GPc) : ∀ gs : List GPc, GPc.leftAll (gs ++ [x]) = GPc.leftAll gs + x.left
  | [] => Nat.add_comm _ _
  | pc :: gs => by rw [List.cons_append, GPc.leftAll, GPc.leftAll, GPc.leftAll_concat x gs, Nat.add_assoc]

theorem St.left_set {s s' : St} {k : Nat} {pc x : GPc} (hk : s.gs[k]? = some pc)
    (hm : s'.main = s.main) (hg : s'.gs = s.gs.set k x) (hx : x.left < pc.left) :
    s'.left specs + 1 ≤ s.left specs := by
  have := GPc.leftAll_set_add (x := x) hk
  simp only [St.left, hm, hg]
  omega

theorem St.left_goStep {s : St} {k : Nat} {pc : GPc} (hk : s.gs[k]? = some pc)
    (h : s.goStep specs cap k pc ≠ s) : (s.goStep specs cap k pc).left specs + 1 ≤ s.left specs := by
  cases pc with
  | acquire =>
    simp only [St.goStep] at h ⊢
    by_cases hc : s.sem < cap
    · rw [if_pos hc]
      exact St.left_set specs hk rfl rfl (by split <;> decide)
    · rw [if_neg hc] at h; exact absurd rfl h
  | call => exact St.left_set specs hk rfl rfl (by decide)
  | store => exact St.left_set specs hk rfl rfl (by decide)
  | release => exact St.left_set specs hk rfl rfl (by decide)
  | finish => exact St.left_set specs hk rfl rfl (by decide)
  | exited => exact absurd rfl h

theorem St.left_next (s : St) (e : Ev) (h : s.next specs cap e ≠ s) :
    (s.next specs cap e).left specs + 1 ≤ s.left specs := by
  cases e with
  | main =>
    cases hm : s.main with
    | spawn k =>
      simp only [St.next, hm, St.mainStep] at h ⊢
      by_cases hk : k < specs.length
      · have : GPc.acquire.left = 5 := rfl
        simp only [hk, if_true, St.left, hm, MainPc.left, GPc.leftAll_concat]
        omega
      · simp only [hk, if_false, St.left, hm, MainPc.left]
        omega
    | wait =>
      simp only [St.next, hm, St.mainStep] at h ⊢
      by_cases hw : s.wg = 0
      · simp only [hw, if_true, St.left, hm, MainPc.left]; omega
      · simp [hw] at h
    | assign => simp [St.next, hm, St.mainStep] at h
  | go k =>
    cases hk : s.gs[k]? with
    | none => simp [St.next, hk] at h
    | some pc =>
      simp only [St.next, hk] at h ⊢
      exact St.left_goStep specs cap hk h

theorem St.moves_le : ∀ (s : St) (es : List Ev), s.moves specs cap es ≤ s.left specs
  | _, [] => Nat.zero_le _
  | s, e :: es => by
    have ih := St.moves_le (s.next specs cap e) es
    unfold St.moves
    split_ifs with h
    · rw [h] at ih ⊢; omega
    · have := St.left_next specs cap s e h; omega

/-- With a slot in `sem`, from every state a schedule reaches, running only goroutines that
can move reaches phase 3. -/
theorem St.Inv.reaches_assign (hcap : 1 ≤ cap) : ∀ (n : Nat) (s : St), s.left specs ≤ n →
    s.Inv specs cap → ∃ es, s.moves specs cap es = es.length ∧ (s.run specs cap es).main = .assign := by
  intro n
  induction n with
  | zero =>
    intro s hl h
    by_contra hno
    have hm : s.main ≠ .assign := fun hm => hno ⟨[], rfl, hm⟩
    obtain ⟨e, he⟩ := h.progress hcap hm
    have := St.left_next specs cap s e he
    omega
  | succ n ih =>
    intro s hl h
    by_cases hm : s.main = .assign
    · exact ⟨[], rfl, hm⟩
    obtain ⟨e, he⟩ := h.progress hcap hm
    have hlt := St.left_next specs cap s e he
    obtain ⟨es, hmv, hr⟩ := ih _ (by omega) (h.next e)
    refine ⟨e :: es, ?_, hr⟩
    simp only [St.moves, if_neg he, hmv, List.length_cons]
    omega

/-- Every schedule of Resolve's fetch phase is finite: whatever the parallelism, at most
6n + 2 of its steps move a goroutine, n the number of planned fetches (n spawns, wg.Wait()
and phase 3 for the main goroutine, five steps for each fetch goroutine). With a slot in
`sem`, from wherever a schedule stops, going on with goroutines that can move reaches
phase 3. -/
theorem fetch_moves_le (es : List Ev) :
    St.init.moves specs cap es ≤ 6 * specs.length + 2 ∧
      (1 ≤ cap → ∃ es', (St.init.run specs cap es).moves specs cap es' = es'.length ∧
        ((St.init.run specs cap es).run specs cap es').main = .assign) :=
  ⟨St.moves_le specs cap St.init es, fun hcap =>
    St.Inv.reaches_assign specs cap hcap _ _ le_rfl ((St.Inv.init : St.init.Inv specs cap).run es)⟩

end Bound

theorem fetch_moves_le_at_sign :
    St.init.moves (plan (collectFields atSignConfig atSignRecord (.struct [.str [], .str []])).2.fields) 10
        [.main, .go 0] ≤
      6 * (plan (collectFields atSignConfig atSignRecord (.struct [.str [], .str []])).2.fields).length + 2 ∧
    ∃ es', (St.init.run (plan (collectFields atSignConfig atSignRecord (.struct [.str [], .str []])).2.fields)
        10 [.main, .go 0]).moves
          (plan (collectFields atSignConfig atSignRecord (.struct [.str [], .str []])).2.fields) 10 es' =
        es'.length ∧
      ((St.init.run (plan (collectFields atSignConfig atSignRecord (.struct [.str [], .str []])).2.fields)
        10 [.main, .go 0]).run
          (plan (collectFields atSignConfig atSignRecord (.struct [.str [], .str []])).2.fields) 10 es').main =
        .assign :=
  have h := fetch_moves_le (plan (collectFields atSignConfig atSignRecord (.struct [.str [], .str []])).2.fields)
    10 [.main, .go 0]
  ⟨h.1, h.2 (by decide)⟩

end GoSecrets.Fetch
