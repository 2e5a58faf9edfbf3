import Xv6.Vm.Exec

/-!
The stack a new program starts with.

Owns: words of user memory; where the argument strings and the vector of their addresses are when
`exec` returns; and that all of it is in the stack's page.

Does not own: how the stack is built (`Xv6.Vm.Exec`).
-/

namespace Xv6.Vm

variable {Page : Type} {d : PageDir Page} {args argv : List (List UInt8)}

/-- The word at a user address. -/
def PageDir.wordAt (d : PageDir Page) (a : Nat) : Option Nat := do
  let b0 ← d.byteAt a
  let b1 ← d.byteAt (a + 1)
  let b2 ← d.byteAt (a + 2)
  let b3 ← d.byteAt (a + 3)
  return b0.toNat + 256 * (b1.toNat + 256 * (b2.toNat + 256 * b3.toNat))

/-- The stack of a new program: the words from `esp` on, the strings they lead to, and that these
are apart and inside the last page. -/
structure InitialStack (argv : List (List UInt8)) (p : Proc Page) (argument : Nat → Nat) : Prop where
  aligned : p.esp % 4 = 0
  low : p.sz - pgsize ≤ p.esp
  high : p.esp + (argv.length + 4) * 4 ≤ p.sz
  returnAddress : p.pgdir.wordAt p.esp = some 0xffffffff
  argc : p.pgdir.wordAt (p.esp + 4) = some argv.length
  vector : p.pgdir.wordAt (p.esp + 8) = some (p.esp + 12)
  pointers : ∀ i, i < argv.length → p.pgdir.wordAt (p.esp + 12 + 4 * i) = some (argument i)
  null : p.pgdir.wordAt (p.esp + 12 + 4 * argv.length) = some 0
  strings : ∀ i arg, argv[i]? = some arg → ∀ j, j < arg.length + 1 →
    p.pgdir.byteAt (argument i + j) = (arg ++ [0])[j]?
  /-- The strings are above the words. -/
  above : ∀ i, i < argv.length → p.esp + (argv.length + 4) * 4 ≤ argument i
  inside : ∀ i arg, argv[i]? = some arg → argument i + (arg.length + 1) ≤ p.sz
  apart : ∀ i j arg, i < j → argv[j]? = some arg → argument j + (arg.length + 1) ≤ argument i

/-! ## Words -/

theorem PageDir.wordAt_of_bytes {a x : Nat} (bound : x < 2 ^ 32)
    (bytes : ∀ k, k < 4 → d.byteAt (a + k) = (wordBytes x)[k]?) : d.wordAt a = some x := by
  have b0 : d.byteAt a = some (Bytes.byte x 0) := bytes 0 (by decide)
  have b1 : d.byteAt (a + 1) = some (Bytes.byte x 1) := bytes 1 (by decide)
  have b2 : d.byteAt (a + 2) = some (Bytes.byte x 2) := bytes 2 (by decide)
  have b3 : d.byteAt (a + 3) = some (Bytes.byte x 3) := bytes 3 (by decide)
  unfold PageDir.wordAt
  rw [b0, b1, b2, b3]
  simp only [Option.bind_eq_bind, Option.bind_some, Option.pure_def, Option.some.injEq, Bytes.byte,
    UInt8.toNat_ofNat', Nat.reducePow, Nat.div_one]
  omega

/-- The bytes of one of several words. -/
theorem flatMap_wordBytes_getElem {words : List Nat} {i x : Nat} (word : words[i]? = some x) {k : Nat}
    (inside : k < 4) : (words.flatMap wordBytes)[4 * i + k]? = (wordBytes x)[k]? := by
  induction words generalizing i with
  | nil => cases word
  | cons first rest ih =>
    have length : (wordBytes first).length = 4 := rfl
    rw [List.flatMap_cons]
    cases i with
    | zero =>
      cases word
      rw [Nat.mul_zero, Nat.zero_add, List.getElem?_append_left (by omega)]
    | succ i =>
      rw [List.getElem?_append_right (by omega), length,
        show 4 * (i + 1) + k - 4 = 4 * i + k by omega]
      exact ih word

/-! ## The strings -/

/-- The bytes of the stack that are used by the first arguments. -/
def usedBy (used : Nat) (args : List (List UInt8)) (i : Nat) : Nat :=
  (args.take i).foldl pushed used

theorem usedBy_all (used : Nat) (args : List (List UInt8)) :
    usedBy used args args.length = args.foldl pushed used := by
  rw [usedBy, List.take_length]

/-- One more argument. -/
theorem usedBy_succ {i : Nat} {arg : List UInt8} (used : Nat) (member : args[i]? = some arg) :
    usedBy used args (i + 1) = pushed (usedBy used args i) arg := by
  rw [usedBy, usedBy, List.take_add_one, member, List.foldl_append]
  rfl

theorem le_pushed (used : Nat) (arg : List UInt8) : used + (arg.length + 1) ≤ pushed used arg := by
  unfold pushed
  omega

theorem usedBy_mono {i j : Nat} (used : Nat) (le : i ≤ j) :
    usedBy used args i ≤ usedBy used args j := by
  obtain ⟨k, rfl⟩ := Nat.exists_eq_add_of_le le
  rw [usedBy, usedBy, List.take_add, List.foldl_append]
  exact le_foldl_pushed _ _

/-- What the loop over the arguments has stored when it comes to its end. -/
theorem pushArgs_strings {n used sp : Nat} {ustack ustack' : List Nat} {d' : PageDir Page}
    (stacked : Stacked d n) (aligned : used % 4 = 0) (inPage : used ≤ pgsize)
    (lengths : ∀ arg ∈ args, arg.length < kernbase)
    (ran : pushArgs args (n * pgsize - used) ustack d = .ok sp ustack' d') :
    args.foldl pushed used ≤ pgsize ∧ args.foldl pushed used % 4 = 0 ∧
      sp = n * pgsize - args.foldl pushed used ∧
      ustack' = ustack ++ (List.range args.length).map (fun i => n * pgsize - usedBy used args (i + 1)) ∧
      d.Rewritten d' ∧
      (∀ i arg, args[i]? = some arg → ∀ j, j < arg.length + 1 →
        d'.byteAt (n * pgsize - usedBy used args (i + 1) + j) = (arg ++ [0])[j]?) ∧
      ∀ a, n * pgsize - used ≤ a → d'.byteAt a = d.byteAt a := by
  induction args generalizing used ustack d with
  | nil =>
    cases ran
    refine ⟨inPage, aligned, rfl, (List.append_nil _).symm, PageDir.Rewritten.refl _, ?_, fun _ _ => rfl⟩
    intro i arg none_
    cases none_
  | cons arg rest ih =>
    have length := lengths arg List.mem_cons_self
    have two := stacked.two
    rw [pushArgs] at ran
    split at ran
    · cases ran
    dsimp only at ran
    by_cases fits : pushed used arg ≤ pgsize
    · have same := PageDir.rewritten_store d (n - 1) (pgsize - pushed used arg) (arg ++ [0])
      have sp_ : uint ((n * pgsize - used : Nat) - (arg.length + 1)) / 4 * 4 =
          n * pgsize - pushed used arg := by
        rw [sp_pushed two stacked.user aligned inPage length, if_pos]
        unfold pgsize at *
        omega
      rw [sp_, copyout_fits stacked fits] at ran
      obtain ⟨total, aligned', sp', vector, same', strings, kept⟩ :=
        ih (stacked.rewritten same) (by unfold pushed; omega) fits
          (fun other member => lengths other (List.mem_cons_of_mem _ member)) ran
      obtain ⟨page, w, data, entry⟩ := PageDir.uva2ka_eq_ok
        (stacked.access (n - 1) (by omega) (by omega))
      have below := le_pushed used arg
      refine ⟨total, aligned', sp', ?_, same.trans same', ?_, ?_⟩
      · rw [vector, List.length_cons, List.range_succ_eq_map, List.map_cons, List.map_map,
          List.append_assoc]
        rfl
      · intro i other member j inside
        cases i with
        | zero =>
          cases member
          change d'.byteAt (n * pgsize - pushed used arg + j) = _
          have place : (n * pgsize - pushed used arg + j) / pgsize = n - 1 ∧
              (n * pgsize - pushed used arg + j) % pgsize = pgsize - pushed used arg + j := by
            unfold pgsize at *
            omega
          rw [kept _ (Nat.le_add_right _ _), PageDir.byteAt_store entry, place.1, place.2,
            if_pos, Nat.add_sub_cancel_left]
          refine ⟨rfl, Nat.le_add_right _ _, ?_⟩
          rw [List.length_append, List.length_singleton]
          omega
        | succ i => exact strings i other member j inside
      · intro a high
        rw [kept a (by omega), PageDir.byteAt_store entry, if_neg]
        rw [List.length_append, List.length_singleton]
        unfold pgsize at *
        omega
    · have copied := copyout_tooLong stacked aligned inPage length (Nat.lt_of_not_le fits)
      split at copied
      · rw [copied] at ran
        cases ran
      · obtain ⟨d'', failed⟩ := copied
        rw [failed] at ran
        cases ran

/-! ## The words -/

section Words

variable {n used : Nat} {words : List Nat} (stacked : Stacked d n) (fits : used + words.length * 4 ≤ pgsize)

include stacked fits

/-- The words below the strings. -/
theorem wordAt_stored {i x : Nat} (word : words[i]? = some x) (bound : x < 2 ^ 32) :
    (d.store (n - 1) (pgsize - used - words.length * 4) (words.flatMap wordBytes)).wordAt
      (n * pgsize - used - words.length * 4 + 4 * i) = some x := by
  have two := stacked.two
  have inside : i < words.length := (List.getElem?_eq_some_iff.mp word).1
  have length := flatMap_wordBytes_length words
  obtain ⟨page, w, data, entry⟩ := PageDir.uva2ka_eq_ok (stacked.access (n - 1) (by omega) (by omega))
  apply PageDir.wordAt_of_bytes bound
  intro k small
  have place : (n * pgsize - used - words.length * 4 + 4 * i + k) / pgsize = n - 1 ∧
      (n * pgsize - used - words.length * 4 + 4 * i + k) % pgsize =
        pgsize - used - words.length * 4 + (4 * i + k) := by
    unfold pgsize at *
    omega
  rw [PageDir.byteAt_store entry, place.1, place.2, if_pos ⟨rfl, by omega, by omega⟩,
    Nat.add_sub_cancel_left]
  exact flatMap_wordBytes_getElem word small

theorem byteAt_stored {a : Nat} (above : n * pgsize - used ≤ a) :
    (d.store (n - 1) (pgsize - used - words.length * 4) (words.flatMap wordBytes)).byteAt a =
      d.byteAt a := by
  have two := stacked.two
  have length := flatMap_wordBytes_length words
  obtain ⟨page, w, data, entry⟩ := PageDir.uva2ka_eq_ok (stacked.access (n - 1) (by omega) (by omega))
  rw [PageDir.byteAt_store entry, if_neg]
  rw [length]
  unfold pgsize at *
  omega

end Words

/-- Where `exec` puts an argument. -/
def argumentAddress (n : Nat) (argv : List (List UInt8)) (i : Nat) : Nat :=
  n * pgsize - usedBy 0 argv (i + 1)

theorem argWords_getElem_add (sp : Nat) (ustack : List Nat) (i : Nat) :
    (argWords sp ustack)[3 + i]? = (ustack ++ [0])[i]? := by
  rw [argWords, List.append_assoc, List.getElem?_append_right (Nat.le_add_right 3 i)]
  exact congrArg _ (Nat.add_sub_cancel_left 3 i)

/-- The stack when the last copy has been made. -/
theorem InitialStack.of_stored {n : Nat} {p : Proc Page} {ustack : List Nat} (stacked : Stacked d n)
    (fits : argBytes argv + (argv.length + 4) * 4 ≤ pgsize) (aligned : argBytes argv % 4 = 0)
    (pushed_ : ustack = (List.range argv.length).map (argumentAddress n argv))
    (strings : ∀ i arg, argv[i]? = some arg → ∀ j, j < arg.length + 1 →
      d.byteAt (argumentAddress n argv i + j) = (arg ++ [0])[j]?) (sz : p.sz = n * pgsize)
    (esp : p.esp = n * pgsize - argBytes argv - (argv.length + 4) * 4)
    (pgdir : p.pgdir = d.store (n - 1) (pgsize - argBytes argv - (argv.length + 4) * 4)
      ((argWords (n * pgsize - argBytes argv) ustack).flatMap wordBytes)) :
    InitialStack argv p (argumentAddress n argv) := by
  have two := stacked.two
  have user : n ≤ 524288 := stacked.user
  have count : ustack.length = argv.length := by
    rw [pushed_, List.length_map, List.length_range]
  have length : (argWords (n * pgsize - argBytes argv) ustack).length = argv.length + 4 := by
    rw [argWords_length, count]
  have fits' : argBytes argv + (argWords (n * pgsize - argBytes argv) ustack).length * 4 ≤ pgsize := by
    rw [length]
    exact fits
  have size : n * pgsize = n * 4096 := rfl
  have page : pgsize = 4096 := rfl
  -- every string is in the part that the arguments use
  have total (i : Nat) (inside : i < argv.length) : usedBy 0 argv (i + 1) ≤ argBytes argv := by
    rw [argBytes, ← usedBy_all]
    exact usedBy_mono 0 inside
  have word {i x : Nat} (isWord : (argWords (n * pgsize - argBytes argv) ustack)[i]? = some x)
      (bound : x < 2 ^ 32) : p.pgdir.wordAt (p.esp + 4 * i) = some x := by
    have stored := wordAt_stored stacked fits' isWord bound
    rw [length] at stored
    rw [pgdir, esp]
    exact stored
  have kept {a : Nat} (above : n * pgsize - argBytes argv ≤ a) : p.pgdir.byteAt a = d.byteAt a := by
    have stored := byteAt_stored stacked fits' above
    rw [length] at stored
    rw [pgdir]
    exact stored
  constructor
  case aligned =>
    rw [esp]
    omega
  case low | high =>
    rw [esp, sz]
    omega
  case returnAddress => exact word (i := 0) rfl (by decide)
  case argc =>
    rw [← count]
    exact word (i := 1) rfl (by omega)
  case vector =>
    have third : uint ((n * pgsize - argBytes argv : Nat) - (ustack.length + 1) * 4) = p.esp + 12 := by
      rw [esp, count]
      unfold uint
      omega
    have found := word (i := 2) rfl (show uint ((n * pgsize - argBytes argv : Nat) -
      (ustack.length + 1) * 4) < 2 ^ 32 by rw [third, esp]; omega)
    rw [third] at found
    exact found
  case pointers =>
    intro i inside
    have isWord : (argWords (n * pgsize - argBytes argv) ustack)[3 + i]? =
        some (argumentAddress n argv i) := by
      have first : i < ustack.length := by omega
      rw [argWords_getElem_add, List.getElem?_append_left first, pushed_, List.getElem?_map,
        List.getElem?_range inside]
      rfl
    have found := word isWord (by unfold argumentAddress; omega)
    rw [Nat.mul_add, ← Nat.add_assoc] at found
    exact found
  case null =>
    have isWord : (argWords (n * pgsize - argBytes argv) ustack)[3 + argv.length]? = some 0 := by
      rw [argWords_getElem_add, ← count, List.getElem?_append_right le_rfl, Nat.sub_self]
      rfl
    have found := word isWord (by decide)
    rw [Nat.mul_add, ← Nat.add_assoc] at found
    exact found
  case strings =>
    intro i arg member j inside
    have bound := total i (List.getElem?_eq_some_iff.mp member).1
    rw [kept (by unfold argumentAddress; omega)]
    exact strings i arg member j inside
  case above =>
    intro i inside
    have bound := total i inside
    rw [esp]
    unfold argumentAddress
    omega
  case inside =>
    intro i arg member
    have room := le_pushed (usedBy 0 argv i) arg
    have bound := total i (List.getElem?_eq_some_iff.mp member).1
    rw [sz]
    unfold argumentAddress
    rw [usedBy_succ 0 member] at bound ⊢
    omega
  case apart =>
    intro i j arg before member
    have room := le_pushed (usedBy 0 argv j) arg
    have earlier : usedBy 0 argv (i + 1) ≤ usedBy 0 argv j := usedBy_mono 0 before
    have bound := total j (List.getElem?_eq_some_iff.mp member).1
    unfold argumentAddress
    rw [usedBy_succ 0 member] at bound ⊢
    omega

/-! ## Every successful call -/

theorem pushArguments_initialStack {m : Mem Page} {w after : World Page} {entry n : Nat}
    {path : List UInt8} (stacked : Stacked d n) (few : argv.length ≤ maxarg)
    (lengths : ∀ arg ∈ argv, arg.length < kernbase)
    (ran : pushArguments entry path argv (n * pgsize) d m w = .ret 0 after) :
    InitialStack argv after.proc (argumentAddress n argv) := by
  obtain ⟨fits, ustack, d', pushes, stored, esp, sz, -⟩ :=
    pushArguments_succeeded stacked few lengths ran
  obtain ⟨-, aligned, -, vector, same, strings, -⟩ :=
    pushArgs_strings stacked (Nat.zero_mod 4) (Nat.zero_le _) lengths pushes
  have user : n ≤ 524288 := stacked.user
  have two := stacked.two
  refine .of_stored (stacked.rewritten same) fits aligned vector strings sz ?_ stored
  rw [esp]
  unfold uint pgsize at *
  omega

/-- A program starts with its arguments on the stack. -/
theorem exec_initial_stack (k : KernelMap) (path : List UInt8) (ip : Inode) (argv : List (List UInt8))
    (before after : World Page) (unlocked : before.held.locked = false)
    (accepted : Accepted argv before.proc)
    (ran : exec k path (some ip) argv before = .ret 0 after) :
    ∃ argument, InitialStack argv after.proc argument := by
  rcases exec_cases k path ip argv unlocked with
    ⟨_, after', failed, _⟩ | ⟨entry, n, d, m, _, ready, reaches⟩
  · rw [failed] at ran
    cases ran
  · rw [reaches] at ran
    exact ⟨_, pushArguments_initialStack ready.stacked accepted.few.le accepted.lengths ran⟩

/-- The small program, with the argument `hi`. -/
theorem exec_initial_stack_tinyProgram :
    ∃ after argument, exec someKernel [] (some (.file tinyProgram tinyProgram_small)) [[104, 105]]
        (caller 1) = .ret 0 after ∧ InitialStack [[104, 105]] after.proc argument := by
  have has : (caller 1).mem.Has 79 := ⟨rfl, by decide⟩
  obtain ⟨d, m, prepared⟩ := tinyProgram_prepared someKernel has
  have accepted : Accepted [[104, 105]] (caller 1).proc := by
    refine ⟨by decide, ?_, by decide⟩
    intro arg member
    rw [List.mem_singleton.mp member]
    decide
  obtain ⟨after, ran⟩ := exec_fits [] rfl (caller_wf (by decide)) prepared accepted.few.le
    accepted.lengths (by decide)
  obtain ⟨argument, stack⟩ := exec_initial_stack someKernel [] _ _ _ _ rfl accepted ran
  exact ⟨after, argument, ran, stack⟩

end Xv6.Vm
