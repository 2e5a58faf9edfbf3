import Xv6.Process.Invariant

/-!
The round-robin order.

Owns: what one turn of `scheduler` does to the pointer `rr_next` and to the slot it
selects, that nothing else moves the pointer, and the bound on how many selections
pass a slot that stays `RUNNABLE`.

Does not own: how long a selected process keeps the CPU (`Xv6.Sched.Quantum`), or the
circular search itself (`Xv6.Lib.CircularScan`).
-/

namespace Xv6.Process

open TransitionSystem
open CircularScan

variable {ncpu : Nat}

/-- The selections so far, oldest first; `none` for a search that found no slot. -/
def observePicks (before : Kernel ncpu) (action : Action ncpu) (_after : Kernel ncpu)
    (picks : List (Option Slot)) : List (Option Slot) :=
  match action with
  | .scheduler _ => picks ++ [schedulerSearch before.proc before.rrNext]
  | _ => picks

def Kernel.watchPicks :
    Kernel ncpu × List (Option Slot) → Action ncpu → Option (Kernel ncpu × List (Option Slot)) :=
  watch Kernel.step observePicks

section Pointer

variable {k k' : Kernel ncpu} {c : Fin ncpu} {p : Slot}

@[simp] theorem Kernel.waitLoop_rrNext (k : Kernel ncpu) (c : Fin ncpu) (p : Slot) :
    (k.waitLoop c p).rrNext = k.rrNext := by
  unfold Kernel.waitLoop
  cases waitScan k.proc p <;> rfl

@[simp] theorem Kernel.resume_rrNext (k : Kernel ncpu) (c : Fin ncpu) (p : Slot) :
    (k.resume c p).rrNext = k.rrNext := by
  unfold Kernel.resume
  cases (k.proc p).context with
  | forkret => rfl
  | yield => rfl
  | sleep =>
    simp only
    split
    · rw [Kernel.waitLoop_rrNext]
      rfl
    · rfl

theorem Kernel.scheduler_rrNext (found : schedulerSearch k.proc k.rrNext = some p) :
    (k.scheduler c).rrNext = (p.val + 1) % nproc := by
  unfold Kernel.scheduler
  rw [found]
  simp only [Kernel.resume_rrNext]
  rfl

/-- The process that `wait` runs in does not become `RUNNABLE` by it. -/
theorem Kernel.waitLoop_state (runs : (k.proc p).state = .running) :
    ((k.waitLoop c p).proc p).state ≠ .runnable := by
  unfold Kernel.waitLoop
  cases scanned : waitScan k.proc p with
  | reap child =>
    have dead := (waitScan_reap scanned).2
    have different : p ≠ child := by
      intro same
      rw [← same, runs] at dead
      simp at dead
    simp [Function.update_of_ne different, runs]
  | fail => simp [runs]
  | sleep => simp [Kernel.sleep]

/-- A selected process does not become `RUNNABLE` again in the same turn. -/
theorem Kernel.scheduler_state (found : schedulerSearch k.proc k.rrNext = some p) :
    ((k.scheduler c).proc p).state ≠ .runnable := by
  have runs : ((k.dispatch c p).proc p).state = .running := by
    simp [Kernel.dispatch]
  unfold Kernel.scheduler
  rw [found]
  simp only [Kernel.resume]
  cases ((k.dispatch c p).proc p).context with
  | forkret => simp [runs]
  | yield => simp [runs]
  | sleep =>
    have cleared : (((k.dispatch c p).clearChan p).proc p).state = .running := by
      simp [Kernel.clearChan, runs]
    simp only
    split
    · exact Kernel.waitLoop_state cleared
    · simp [cleared]

/-- Only `scheduler` moves the pointer. -/
theorem Step.rrNext_eq {action : Action ncpu} (step : Step k action k')
    (other : ∀ c, action ≠ .scheduler c) : k'.rrNext = k.rrNext := by
  cases step with
  | scheduler idle => exact absurd rfl (other _)
  | tick on _ _ ticked => cases Kernel.Ticked.of_tick ticked <;> rfl
  | fdalloc on at_ =>
    unfold Kernel.fdalloc
    split <;> rfl
  | @forkAlloc c p on at_ =>
    rcases k.forkAlloc_cases p with unchanged | ⟨np, _, changed⟩
    · rw [unchanged]
    · rw [changed]
      rfl
  | @forkKalloc c p np page on at_ => cases page <;> rfl
  | @forkCopyuvm c p np copied on at_ => cases copied <;> rfl
  | wait on at_ => exact Kernel.waitLoop_rrNext _ _ _
  | _ => rfl

end Pointer

/-! ## The bound -/

/-- While slot `i` waits: either the selections so far passed it in circular order, or
the last one was `i` itself, which is then no longer `RUNNABLE`. -/
def Awaiting (base : Nat) (i : Slot) (k : Kernel ncpu) (picks : List (Option Slot)) : Prop :=
  (∃ found, picks = found.map some ∧ Bypassing base i k.rrNext found) ∨
    ∃ found pointer, picks = (found ++ [i]).map some ∧ Bypassing base i pointer found ∧
      (k.proc i).state ≠ .runnable

theorem Awaiting.step {base : Nat} {i : Slot} {k k' : Kernel ncpu} {action : Action ncpu}
    {picks : List (Option Slot)} (waits : Awaiting base i k picks)
    (ready : (k.proc i).state = .runnable) (taken : k.step action = some k') :
    Awaiting base i k' (observePicks k action k' picks) := by
  rcases waits with ⟨found, same, bypassing⟩ | ⟨_, _, _, _, gone⟩
  · by_cases isTurn : ∃ c, action = .scheduler c
    · obtain ⟨c, rfl⟩ := isTurn
      have after : k' = k.scheduler c := by
        cases Step.of_step taken
        rfl
      have accepted : (fun slot => decide ((k.proc slot).state = .runnable)) i = true := by
        simpa using ready
      obtain ⟨p, search⟩ : ∃ p, schedulerSearch k.proc k.rrNext = some p := scan_isSome accepted
      have picksNow : observePicks k (.scheduler c) k' picks = (found ++ [p]).map some := by
        simp [observePicks, search, same]
      rw [picksNow, after]
      by_cases isSelf : p = i
      · right
        rw [isSelf] at search ⊢
        exact ⟨found, k.rrNext, rfl, bypassing, Kernel.scheduler_state search⟩
      · left
        refine ⟨found ++ [p], rfl, ?_⟩
        rw [Kernel.scheduler_rrNext search]
        exact bypassing.step accepted search isSelf
    · left
      have other : ∀ c, action ≠ .scheduler c := fun c equal => isTurn ⟨c, equal⟩
      have picksNow : observePicks k action k' picks = picks := by
        cases action <;> first | rfl | exact absurd rfl (other _)
      rw [picksNow, (Step.of_step taken).rrNext_eq other]
      exact ⟨found, same, bypassing⟩
  · exact absurd ready gone

/-- Bounded bypass: from any state, while slot `i` is `RUNNABLE` at every step, every
search finds a slot, no slot is selected twice, slot `i` is selected by the last step if
at all, at most `NPROC - 1` selections go to others, and the `NPROC`-th selects `i`. -/
theorem round_robin_bounded_bypass {start k : Kernel ncpu} {i : Slot}
    {actions : List (Action ncpu)} {picks : List (Option Slot)}
    (stays : AllSteps Kernel.watchPicks
      (fun watched _ => (watched.1.proc i).state = .runnable) (start, []) actions)
    (reaches : run Kernel.watchPicks (start, []) actions = some (k, picks)) :
    ∃ selected : List Slot, picks = selected.map some ∧ selected.Nodup ∧
      i ∉ selected.dropLast ∧
      (selected.filter fun slot => decide (slot ≠ i)).length ≤ nproc - 1 ∧
      (selected.length = nproc → selected.getLast? = some i) := by
  have waits : Awaiting start.rrNext i k picks := by
    refine run_invariant_of_allSteps
      (fun watched => Awaiting start.rrNext i watched.1 watched.2) ?_ ?_ stays reaches
    · intro before action after inv ready taken
      obtain ⟨stepped, observed⟩ := watch_eq_some.mp taken
      rw [observed]
      exact inv.step ready stepped
    · exact Or.inl ⟨[], rfl, bypassing_start _ _⟩
  rcases waits with ⟨found, same, bypassing⟩ | ⟨found, pointer, same, bypassing, _⟩
  · have absent := bypassing.awaited_notMem
    have bound := bypassing.length_le
    refine ⟨found, same, bypassing.nodup, ?_, ?_, ?_⟩
    · intro member
      exact absent (List.mem_of_mem_dropLast member)
    · exact (List.length_filter_le _ _).trans bound
    · intro full
      rw [full] at bound
      exact absurd bound (by decide)
  · have absent := bypassing.awaited_notMem
    refine ⟨found ++ [i], same, ?_, by simpa using absent, ?_, by simp⟩
    · rw [List.nodup_append]
      refine ⟨bypassing.nodup, by simp, ?_⟩
      intro slot member other isLast equal
      rw [List.mem_singleton.mp isLast] at equal
      exact absent (equal ▸ member)
    · rw [List.filter_append]
      simp only [ne_eq, not_true_eq_false, decide_false, Bool.false_eq_true, not_false_eq_true,
        List.filter_cons_of_neg, List.filter_nil, List.append_nil]
      exact (List.length_filter_le _ _).trans bypassing.length_le

/-- `init` running on the only CPU, with two children that have not run yet. -/
def twoChildren : Kernel 1 :=
  let fork : List (Action 1) :=
    [.forkAlloc 0, .forkKalloc 0 (some 1), .forkCopyuvm 0 true, .forkParent 0, .forkFiles 0,
      .forkFinish 0]
  (run Kernel.step (Kernel.boot 1 0 0) (.scheduler 0 :: fork ++ fork)).getD
    (Kernel.boot 1 0 0)

/-- The second child is selected after the first. -/
theorem round_robin_bounded_bypass_twoChildren :
    ∃ (k : Kernel 1) (selected : List Slot),
      run Kernel.watchPicks (twoChildren, [])
        (List.replicate 10 (.tick 0 true) ++ [.scheduler 0] ++
          List.replicate 10 (.tick 0 true) ++ [.scheduler 0]) =
        some (k, selected.map some) ∧
      selected = [1, 2] ∧ (selected.filter fun slot => decide (slot ≠ 2)).length ≤ nproc - 1 := by
  have stays : AllSteps Kernel.watchPicks
      (fun watched _ => (watched.1.proc 2).state = .runnable) (twoChildren, [])
      (List.replicate 10 (.tick 0 true) ++ [.scheduler 0] ++
        List.replicate 10 (.tick 0 true) ++ [.scheduler 0]) := by
    decide +kernel
  have ran : (run Kernel.watchPicks (twoChildren, [])
      (List.replicate 10 (.tick 0 true) ++ [.scheduler 0] ++
        List.replicate 10 (.tick 0 true) ++ [.scheduler 0])).map Prod.snd =
      some [some 1, some 2] := by
    decide +kernel
  obtain ⟨⟨k, picks⟩, reaches, same⟩ := Option.map_eq_some_iff.mp ran
  obtain ⟨selected, isMap, _, _, bound, _⟩ := round_robin_bounded_bypass stays reaches
  refine ⟨k, selected, by rw [reaches, isMap], ?_, bound⟩
  have values : selected.map some = [some 1, some 2] := isMap.symm.trans same
  cases selected with
  | nil => simp at values
  | cons first rest =>
    cases rest with
    | nil => simp at values
    | cons second rest => simpa using values

end Xv6.Process
