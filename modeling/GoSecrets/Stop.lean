import GoSecrets.Basic

/-! Stopping a watcher (watcher.go): Watcher.Stop, and the poll loop's select and deferred
calls, as threads over the channels `w.stop`, `w.done` and `w.changes` (buffer 64) and the
context's Done channel. Any number of Stop calls run from their own goroutines; a schedule
is any interleaving of their steps with the loop's, the context's cancellation, the sends
of poll and the reads of a Changes reader. Stop's select and its close are two steps. A
run-time panic ends the program. -/
namespace GoSecrets.Stop

/-- Where a Stop call stands: at its select, at `close(w.stop)` after the default branch,
at `<-w.done`, or returned. -/
inductive StopPc where
  | select
  | close
  | wait
  | returned
deriving DecidableEq, Repr

/-- Where pollLoop stands: in its for-select loop, or at its deferred
`close(w.changes)` and `close(w.done)` after returning (`ticker.Stop()` touches no
channel). -/
inductive LoopPc where
  | loop
  | closeChanges
  | closeDone
  | exited
deriving DecidableEq, Repr

inductive Chan where
  | stop
  | done
  | changes
deriving DecidableEq, Repr

/-- The run-time panics of channel operations. -/
inductive Panic where
  | closeOfClosed (ch : Chan)
  | sendOnClosed (ch : Chan)
deriving DecidableEq, Repr

def Panic.msg : Panic → String
  | .closeOfClosed _ => "close of closed channel"
  | .sendOnClosed _ => "send on closed channel"

/-- `make(chan ChangeEvent, 64)`. -/
def changesCap : Nat := 64

structure St where
  stop : Bool
  done : Bool
  changesClosed : Bool
  buffered : Nat
  cancelled : Bool
  loop : LoopPc
  calls : List StopPc
  panic : Option Panic
deriving DecidableEq, Repr

/-- A scheduler choice: the next step of Stop call `i`, of the loop, a send of poll (a
non-blocking `select` on `w.changes <- event`), a read of Changes, or the cancellation of
the context. -/
inductive Ev where
  | stop (i : Nat)
  | loop
  | send
  | recv
  | cancel
deriving DecidableEq, Repr

def St.setCall (s : St) (i : Nat) (pc : StopPc) : St := { s with calls := s.calls.set i pc }

def St.crash (s : St) (p : Panic) : St := { s with panic := some p }

/-- Stop call `i`'s next step. The select takes its receive case when `w.stop` is closed and
its default branch otherwise; `<-w.done` blocks until `w.done` is closed. -/
def St.stopStep (s : St) (i : Nat) : StopPc → St
  | .select => if s.stop then s.setCall i .wait else s.setCall i .close
  | .close => if s.stop then s.crash (.closeOfClosed .stop) else { s.setCall i .wait with stop := true }
  | .wait => if s.done then s.setCall i .returned else s
  | .returned => s

/-- The loop's next step. Its select returns once `w.stop` or the context's Done channel is
closed (when the ticker is ready too, Go may take either case: a tick is a send). -/
def St.loopStep (s : St) : LoopPc → St
  | .loop => if s.stop || s.cancelled then { s with loop := .closeChanges } else s
  | .closeChanges =>
    if s.changesClosed then s.crash (.closeOfClosed .changes)
    else { s with changesClosed := true, loop := .closeDone }
  | .closeDone =>
    if s.done then s.crash (.closeOfClosed .done) else { s with done := true, loop := .exited }
  | .exited => s

/-- One send of poll, made only inside the loop; a full buffer drops the event. -/
def St.send (s : St) : St :=
  if s.loop = .loop then
    if s.changesClosed then s.crash (.sendOnClosed .changes)
    else if s.buffered < changesCap then { s with buffered := s.buffered + 1 } else s
  else s

def St.act (s : St) : Ev → St
  | .stop i =>
    match s.calls[i]? with
    | some pc => s.stopStep i pc
    | none => s
  | .loop => s.loopStep s.loop
  | .send => s.send
  | .recv => { s with buffered := s.buffered - 1 }
  | .cancel => { s with cancelled := true }

/-- After a panic nothing runs. -/
def St.next (s : St) (e : Ev) : St := if s.panic.isSome then s else s.act e

def St.run : St → List Ev → St
  | s, [] => s
  | s, e :: es => (s.next e).run es

/-- Watch's channels just made, its loop started, and `n` Stop calls about to run. -/
def St.init (n : Nat) : St := ⟨false, false, false, 0, false, .loop, List.replicate n .select, none⟩

theorem St.next_stop {s : St} {i : Nat} {pc : StopPc} (hp : s.panic = none)
    (hi : s.calls[i]? = some pc) : s.next (.stop i) = s.stopStep i pc := by
  simp only [St.next, hp, Option.isSome_none, Bool.false_eq_true, if_false, St.act, hi]

/-! ### Two Stop calls close `w.stop` twice -/

/-- Two Stop calls that both reach their select while `w.stop` is open both take the default
branch; the second close panics. -/
theorem run_stop_twice {s : St} {i j : Nat} (hij : i ≠ j) (hp : s.panic = none) (hs : s.stop = false)
    (hi : s.calls[i]? = some .select) (hj : s.calls[j]? = some .select) :
    (s.run [.stop i, .stop j, .stop i, .stop j]).panic = some (.closeOfClosed .stop) := by
  obtain ⟨hi', hi2⟩ := List.getElem?_eq_some_iff.mp hi
  obtain ⟨hj', hj2⟩ := List.getElem?_eq_some_iff.mp hj
  simp [St.run, St.next_stop, St.stopStep, St.setCall, St.crash, hp, hs, hi, hj, hij, Ne.symm hij,
    hi', hj', hi2, hj2]

theorem concurrent_stops_close_twice :
    ((St.init 2).run [.stop 0, .stop 1, .stop 0, .stop 1]).panic = some (.closeOfClosed .stop) ∧
      (Panic.closeOfClosed .stop).msg = "close of closed channel" :=
  ⟨run_stop_twice (by decide) rfl rfl rfl rfl, rfl⟩

/-! ### What every schedule keeps -/

/-- The loop closes Changes and then done, after it left its loop, and only once `w.stop` or
the context's Done channel was closed; no Stop call returns before done is closed; the
buffer holds at most 64 events; the only panic is a second close of `w.stop`. -/
structure St.Inv (s : St) : Prop where
  changes_closed : s.changesClosed = true ↔ s.loop = .closeDone ∨ s.loop = .exited
  done_closed : s.done = true ↔ s.loop = .exited
  exit_stopped : s.loop ≠ .loop → s.stop = true ∨ s.cancelled = true
  returned_exited : StopPc.returned ∈ s.calls → s.loop = .exited
  buffered_le : s.buffered ≤ changesCap
  panic_stop : s.panic = none ∨ s.panic = some (.closeOfClosed .stop)

section Inv
variable {s : St}

theorem St.Inv.init (n : Nat) : (St.init n).Inv where
  changes_closed := by simp [St.init]
  done_closed := by simp [St.init]
  exit_stopped h := absurd rfl h
  returned_exited h := by simp [St.init] at h
  buffered_le := Nat.zero_le _
  panic_stop := .inl rfl

theorem St.Inv.setCall (h : s.Inv) (i : Nat) (pc : StopPc) (hpc : pc = .returned → s.loop = .exited) :
    (s.setCall i pc).Inv :=
  { h with
    returned_exited := fun hm => (List.mem_or_eq_of_mem_set hm).elim h.returned_exited (hpc ·.symm) }

theorem St.Inv.stopStep (h : s.Inv) (i : Nat) : ∀ pc, (s.stopStep i pc).Inv
  | .select => by
    simp only [St.stopStep]
    split
    · exact h.setCall i .wait (fun h => nomatch h)
    · exact h.setCall i .close (fun h => nomatch h)
  | .close => by
    simp only [St.stopStep]
    split
    · exact { h with panic_stop := .inr rfl }
    · exact { h.setCall i .wait (fun h => nomatch h) with exit_stopped := fun _ => .inl rfl }
  | .wait => by
    simp only [St.stopStep]
    split
    · exact h.setCall i .returned fun _ => h.done_closed.mp ‹_›
    · exact h
  | .returned => h

theorem St.Inv.loopStep (h : s.Inv) : (s.loopStep s.loop).Inv := by
  have hc := h.changes_closed
  have hd := h.done_closed
  have hr := h.returned_exited
  cases hl : s.loop <;> simp only [St.loopStep]
  · split
    · rename_i hs
      exact { h with
        changes_closed := by simp_all
        done_closed := by simp_all
        exit_stopped := fun _ => by simpa using hs
        returned_exited := fun hm => absurd (hr hm) (by simp [hl]) }
    · exact h
  · rw [if_neg (by simp_all)]
    exact { h with
      changes_closed := by simp
      done_closed := by simp_all
      exit_stopped := fun _ => h.exit_stopped (by simp [hl])
      returned_exited := fun hm => absurd (hr hm) (by simp [hl]) }
  · rw [if_neg (by simp_all)]
    exact { h with
      changes_closed := by simp [hc, hl]
      done_closed := by simp
      exit_stopped := fun _ => h.exit_stopped (by simp [hl])
      returned_exited := fun _ => rfl }
  · exact h

theorem St.Inv.send (h : s.Inv) : s.send.Inv := by
  unfold St.send
  split
  · rename_i hl
    rw [if_neg (by simp [h.changes_closed, hl])]
    split
    · exact { h with buffered_le := ‹s.buffered < changesCap› }
    · exact h
  · exact h

/-- Step lemma: every scheduler choice keeps the invariant. -/
theorem St.Inv.next (h : s.Inv) (e : Ev) : (s.next e).Inv := by
  unfold St.next
  split
  · exact h
  · cases e with
    | stop i =>
      simp only [St.act]
      split
      · exact h.stopStep i _
      · exact h
    | loop => exact h.loopStep
    | send => exact h.send
    | recv => exact { h with buffered_le := Nat.le_trans (Nat.sub_le _ _) h.buffered_le }
    | cancel => exact { h with exit_stopped := fun _ => .inr rfl }

/-- Run lemma: the invariant holds after any schedule. -/
theorem St.Inv.run (h : s.Inv) (es : List Ev) : (s.run es).Inv := by
  induction es generalizing s with
  | nil => exact h
  | cons e es ih => exact ih (h.next e)

end Inv

/-- On every schedule of any number of Stop calls with the loop, the context and a reader:
the only panic is a second close of `w.stop` (Changes and done are never closed twice and
Changes is never sent on after its close); a Stop call returns only after the loop exited,
having closed Changes and done; the loop leaves its select only once `w.stop` or the
context's Done channel is closed. -/
theorem stop_run_safe (n : Nat) (es : List Ev) :
    let s := (St.init n).run es
    (s.panic = none ∨ s.panic = some (.closeOfClosed .stop)) ∧
      (StopPc.returned ∈ s.calls → s.loop = .exited ∧ s.changesClosed = true ∧ s.done = true) ∧
      (s.loop ≠ .loop → s.stop = true ∨ s.cancelled = true) := by
  have h := (St.Inv.init n).run es
  refine ⟨h.panic_stop, fun hm => ?_, h.exit_stopped⟩
  have hl := h.returned_exited hm
  exact ⟨hl, h.changes_closed.mpr (.inr hl), h.done_closed.mpr hl⟩

/-! ### One Stop call -/

/-- The loop's steps and poll's sends touch neither the Stop calls nor `w.stop`, and under
the invariant they do not panic. -/
theorem St.Inv.loopStep_frame {s : St} (h : s.Inv) : (s.loopStep s.loop).panic = s.panic ∧
    (s.loopStep s.loop).calls = s.calls ∧ (s.loopStep s.loop).stop = s.stop := by
  cases hl : s.loop <;> simp only [St.loopStep]
  · split <;> simp
  · rw [if_neg (by simp [h.changes_closed, hl])]
    exact ⟨rfl, rfl, rfl⟩
  · rw [if_neg (by simp [h.done_closed, hl])]
    exact ⟨rfl, rfl, rfl⟩
  · simp

theorem St.Inv.send_frame {s : St} (h : s.Inv) :
    s.send.panic = s.panic ∧ s.send.calls = s.calls ∧ s.send.stop = s.stop := by
  unfold St.send
  split
  · rw [if_neg (by simp [h.changes_closed, *])]
    split <;> exact ⟨rfl, rfl, rfl⟩
  · exact ⟨rfl, rfl, rfl⟩

/-- With a single Stop call only that call closes `w.stop`: it is open while the call has
not passed its close, and nothing panics. -/
structure St.Single (s : St) : Prop where
  inv : s.Inv
  one : ∃ pc, s.calls = [pc] ∧ (s.stop = true ↔ pc = .wait ∨ pc = .returned)
  no_panic : s.panic = none

section Single
variable {s s' : St}

theorem St.Single.frame (h : s.Single) (hi : s'.Inv) (hp : s'.panic = s.panic)
    (hc : s'.calls = s.calls) (hs : s'.stop = s.stop) : s'.Single :=
  ⟨hi, hc ▸ hs ▸ h.one, hp ▸ h.no_panic⟩

theorem St.Single.init : (St.init 1).Single :=
  ⟨St.Inv.init 1, ⟨.select, rfl, by simp [St.init]⟩, rfl⟩

theorem St.Single.next (h : s.Single) (e : Ev) : (s.next e).Single := by
  have hn := h.inv.next e
  obtain ⟨pc, hc, hopen⟩ := h.one
  simp only [St.next, h.no_panic, Option.isSome_none, Bool.false_eq_true, if_false] at hn ⊢
  cases e with
  | stop i =>
    cases i with
    | succ i => simpa [St.act, hc] using h
    | zero =>
      have ha : s.act (.stop 0) = s.stopStep 0 pc := by simp [St.act, hc]
      rw [ha] at hn ⊢
      cases pc <;> simp only [St.stopStep] at hn ⊢
      · rw [if_neg (by simpa using hopen)] at hn ⊢
        exact ⟨hn, ⟨.close, by simp [St.setCall, hc], by simpa using hopen⟩, h.no_panic⟩
      · rw [if_neg (by simpa using hopen)] at hn ⊢
        exact ⟨hn, ⟨.wait, by simp [St.setCall, hc], by simp⟩, h.no_panic⟩
      · by_cases hd : s.done
        · rw [if_pos hd] at hn ⊢
          exact ⟨hn, ⟨.returned, by simp [St.setCall, hc], by simpa using hopen⟩, h.no_panic⟩
        · rw [if_neg hd]
          exact h
      · exact h
  | loop =>
    obtain ⟨hp, hc', hs⟩ := h.inv.loopStep_frame
    exact h.frame hn hp hc' hs
  | send =>
    obtain ⟨hp, hc', hs⟩ := h.inv.send_frame
    exact h.frame hn hp hc' hs
  | recv => exact h.frame hn rfl rfl rfl
  | cancel => exact h.frame hn rfl rfl rfl

theorem St.Single.run (h : s.Single) (es : List Ev) : (s.run es).Single := by
  induction es generalizing s with
  | nil => exact h
  | cons e es ih => exact ih (h.next e)

theorem St.run_append (s : St) (es es' : List Ev) : s.run (es ++ es') = (s.run es).run es' := by
  induction es generalizing s with
  | nil => rfl
  | cons e es ih => exact ih _

end Single

/-- With one Stop call, no schedule panics. -/
theorem single_stop_never_panics (es : List Ev) : ((St.init 1).run es).panic = none :=
  (St.Single.init.run es).no_panic

end GoSecrets.Stop
