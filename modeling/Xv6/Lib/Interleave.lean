import Xv6.Lib.TransitionSystem
import Xv6.Lib.Update

/-!
Programs that run interleaved on one shared state.

Owns: programs as trees of operations; the machine that runs one program for each thread, an
operation a step; and a logic in which each program is checked alone, against what the thread
itself holds, with the theorem that the shared invariant then holds in every interleaving.

Does not own: the operations.
-/

namespace Interleave

open Function (update)

/-- The operations on a shared state, and what each returns. -/
structure Signature where
  Op : Type
  Ret : Op → Type

inductive Prog (S : Signature) (α : Type) : Type
  | ret (value : α)
  | op (o : S.Op) (next : S.Ret o → Prog S α)

variable {S : Signature} {α β γ : Type}

namespace Prog

def bind : Prog S α → (α → Prog S β) → Prog S β
  | .ret value, rest => rest value
  | .op o next, rest => .op o fun answer => (next answer).bind rest

instance : Monad (Prog S) where
  pure := .ret
  bind := bind

/-- The program of one operation. -/
def perform (o : S.Op) : Prog S (S.Ret o) :=
  .op o .ret

end Prog

/-! ## The machine -/

structure Machine (S : Signature) where
  Shared : Type
  Thread : Type
  /-- What the environment decides. -/
  Choice : Type
  Call : Type
  Result : Type
  exec : Shared → Thread → Choice → (o : S.Op) → Option (S.Ret o × Shared)
  /-- Which threads may start a call and perform operations. -/
  ready : Shared → Thread → Bool
  body : Call → Prog S Result

variable {m : Machine S}

structure Config (m : Machine S) where
  shared : m.Shared
  /-- The rest of the call each thread is in. -/
  prog : m.Thread → Option (Prog S m.Result)

inductive Action (m : Machine S) where
  | call (thread : m.Thread) (call : m.Call)
  | run (thread : m.Thread) (choice : m.Choice)

def step [DecidableEq m.Thread] (c : Config m) : Action m → Option (Config m)
  | .call thread call =>
    if (c.prog thread).isNone && m.ready c.shared thread then
      some { c with prog := Function.update c.prog thread (some (m.body call)) }
    else none
  | .run thread choice =>
    match c.prog thread with
    | none => none
    | some (.ret _) => some { c with prog := Function.update c.prog thread none }
    | some (.op o next) =>
      if m.ready c.shared thread then
        (m.exec c.shared thread choice o).map fun done =>
          { shared := done.2, prog := Function.update c.prog thread (some (next done.1)) }
      else none

/-- No thread is in a call. -/
def Config.quiet (c : Config m) : Prop :=
  ∀ thread, c.prog thread = none

/-- The operation a thread performs next. -/
def Config.next (c : Config m) (thread : m.Thread) : Option S.Op :=
  match c.prog thread with
  | some (.op o _) => some o
  | _ => none

/-! ## The logic -/

/-- What an operation needs of the thread that performs it, what its answer tells the thread,
and what the thread holds afterwards. -/
structure Logic (S : Signature) where
  Local : Type
  /-- What a thread holds between calls. -/
  idle : Local
  /-- What it may hold when a call returns. -/
  done : Local → Prop
  pre : Local → S.Op → Prop
  fact : Local → (o : S.Op) → S.Ret o → Prop
  post : Local → (o : S.Op) → S.Ret o → Local

namespace Logic

variable (L : Logic S)

/-- A thread that holds `a` can run the program, and ends in `final`. -/
def Safe (final : α → L.Local → Prop) : L.Local → Prog S α → Prop
  | a, .ret value => final value a
  | a, .op o next =>
    L.pre a o ∧ ∀ answer, L.fact a o answer → Safe final (L.post a o answer) (next answer)

variable {L}

theorem safe_bind {final : β → L.Local → Prop} {program : Prog S α} {rest : α → Prog S β}
    {a : L.Local} :
    L.Safe final a (program.bind rest) ↔
      L.Safe (fun value b => L.Safe final b (rest value)) a program := by
  induction program generalizing a with
  | ret value => rfl
  | op o next ih =>
    simp only [Prog.bind, Safe]
    refine and_congr_right fun _ => forall_congr' fun answer => ?_
    exact imp_congr_right fun _ => ih answer

theorem Safe.bind {final : β → L.Local → Prop} {program : Prog S α} {rest : α → Prog S β}
    {a : L.Local} (safe : L.Safe (fun value b => L.Safe final b (rest value)) a program) :
    L.Safe final a (program >>= rest) :=
  safe_bind.mpr safe

/-- What a thread holds covers the rest of its call. -/
def Covers (L : Logic S) (a : L.Local) : Option (Prog S α) → Prop
  | none => a = L.idle
  | some program => L.Safe (fun _ b => L.done b) a program

/-- A thread has what its next operation needs. -/
theorem Covers.needs {c : Config m} {thread : m.Thread} {a : L.Local} {o : S.Op}
    (covers : L.Covers a (c.prog thread)) (isNext : c.next thread = some o) : L.pre a o := by
  unfold Config.next at isNext
  split at isNext
  · rename_i running
    rw [running] at covers
    cases isNext
    exact covers.1
  · cases isNext

/-- The shared invariant holds of what the threads hold, which covers their calls. -/
def Holds (L : Logic S) (Inv : m.Shared → (m.Thread → L.Local) → Prop) (c : Config m) : Prop :=
  ∃ locals, Inv c.shared locals ∧ ∀ thread, L.Covers (locals thread) (c.prog thread)

variable [DecidableEq m.Thread] {Inv : m.Shared → (m.Thread → L.Local) → Prop}

theorem covers_update {c : Config m} {locals : m.Thread → L.Local}
    (covers : ∀ thread, L.Covers (locals thread) (c.prog thread)) (thread : m.Thread)
    (a : L.Local) (program : Option (Prog S m.Result)) (self : L.Covers a program)
    (other : m.Thread) :
    L.Covers (update locals thread a other)
      (update c.prog thread program other) :=
  Update.cases₂ other self fun _ => covers other

/-- One step keeps the invariant, when every operation does. -/
theorem Holds.step (allowed : Config m → Action m → Prop)
    (calls : ∀ c thread call, allowed c (.call thread call) →
      L.Safe (fun _ b => L.done b) L.idle (m.body call))
    (returns : ∀ shared locals thread, Inv shared locals → L.done (locals thread) →
      Inv shared (update locals thread L.idle))
    (operations : ∀ (c : Config m) locals thread choice o answer shared,
      Inv c.shared locals → c.next thread = some o → allowed c (.run thread choice) →
      m.ready c.shared thread = true → L.pre (locals thread) o → m.exec c.shared thread choice o = some (answer, shared) →
      L.fact (locals thread) o answer ∧
        Inv shared (update locals thread (L.post (locals thread) o answer)))
    {c next : Config m} {action : Action m} (holds : L.Holds Inv c) (meets : allowed c action)
    (stepped : Interleave.step c action = some next) : L.Holds Inv next := by
  obtain ⟨locals, inv, covers⟩ := holds
  cases action with
  | call thread call =>
    simp only [Interleave.step, Option.ite_none_right_eq_some, Bool.and_eq_true,
      Option.isNone_iff_eq_none, Option.some.injEq] at stepped
    obtain ⟨⟨idle, _⟩, rfl⟩ := stepped
    have atIdle : locals thread = L.idle := by
      have covered := covers thread
      rw [idle] at covered
      exact covered
    refine ⟨locals, inv, ?_⟩
    have updated := covers_update covers thread (locals thread) (some (m.body call))
      (by rw [atIdle]; exact calls c thread call meets)
    rw [Function.update_eq_self] at updated
    exact updated
  | run thread choice =>
    have covered := covers thread
    simp only [Interleave.step] at stepped
    split at stepped
    · cases stepped
    · rename_i value atReturn
      cases stepped
      rw [atReturn] at covered
      exact ⟨_, returns c.shared locals thread inv covered,
        covers_update covers thread L.idle none rfl⟩
    · rename_i o rest performs
      simp only [Option.ite_none_right_eq_some, Option.map_eq_some_iff] at stepped
      obtain ⟨ready, ⟨answer, shared⟩, executed, rfl⟩ := stepped
      rw [performs] at covered
      have isNext : c.next thread = some o := by
        unfold Config.next
        rw [performs]
      obtain ⟨told, kept⟩ := operations c locals thread choice o answer shared inv isNext meets
        ready covered.1 executed
      exact ⟨_, kept, covers_update covers thread _ _ (covered.2 answer told)⟩

omit [DecidableEq m.Thread] in
theorem Holds.start {c : Config m} (inv : Inv c.shared fun _ => L.idle) (quiet : c.quiet) :
    L.Holds Inv c := by
  refine ⟨fun _ => L.idle, inv, ?_⟩
  intro thread
  rw [quiet thread]
  rfl

end Logic

end Interleave
