import Xv6.Lib.Bytes
import Xv6.Vm.Grow
import Xv6.Vm.Supply
import Xv6.Vm.UserMem

/-!
Loading a program.

Owns: reading an inode; the headers of an ELF file; `loaduvm` and the loop of `exec` over the
program headers; and the image that a file describes, with the theorem that the loop builds it.

Does not own: the rest of `exec` (`Xv6.Vm.Exec`).

The process holds the inode's lock while it reads, so a file does not change under the loop. A
device answers each read as it likes.
-/

namespace Xv6.Vm

variable {Page : Type} {data : List UInt8} {off n v left a sz : Nat} {d : PageDir Page}
  {ph : Proghdr} {hs : List Proghdr}

/-! ## Reading -/

inductive Inode where
  | file (data : List UInt8) (small : data.length < 2 ^ 32)
  | device (answers : List (Option (List UInt8)))

/-- The bytes that are read, or none for -1. -/
def Inode.readi : Inode → Nat → Nat → Option (List UInt8) × Inode
  | .file data small, off, n =>
    if data.length < off ∨ (off + n) % 2 ^ 32 < off then (none, .file data small)
    else (some ((data.drop off).take n), .file data small)
  | .device answers, _, n => (answers.head?.join.map (List.take n), .device answers.tail)

/-- `n` bytes, the lowest first, as a number. -/
def le (bytes : List UInt8) (off n : Nat) : Nat :=
  Bytes.get (fun i => bytes.getD i 0) off n

structure Elfhdr where
  magic : Nat
  entry : Nat
  phoff : Nat
  phnum : Nat

def elfhdr (bytes : List UInt8) : Elfhdr :=
  ⟨le bytes 0 4, le bytes 24 4, le bytes 28 4, le bytes 44 2⟩

def elfhdrSize : Nat := 52

def elfMagic : Nat := 0x464C457F

structure Proghdr where
  type : Nat
  off : Nat
  vaddr : Nat
  filesz : Nat
  memsz : Nat

def proghdr (bytes : List UInt8) : Proghdr :=
  ⟨le bytes 0 4, le bytes 4 4, le bytes 8 4, le bytes 16 4, le bytes 20 4⟩

def proghdrSize : Nat := 32

def elfProgLoad : Nat := 1

/-! ## Loading -/

/-- The loop of `loaduvm` from page `v`, with `left` bytes to go, and whether it read them all.
The panic is that there is no table; where there is one without a page, `readi` would write over
physical page 0, and the loop has no result either. -/
def loaduvmFrom : Nat → Nat → Nat → Nat → PageDir Page → Inode →
    Option (Bool × PageDir Page × Inode)
  | 0, _, _, _, d, ip => some (true, d, ip)
  | fuel + 1, v, off, left, d, ip =>
    if left = 0 then some (true, d, ip)
    else
      match d.pte v with
      | some (.user _ _ _ _) =>
        let n := if left < pgsize then left else pgsize
        match ip.readi off n with
        | (none, ip) => some (false, d, ip)
        | (some bytes, ip) =>
          if bytes.length ≠ n then some (false, d.store v 0 bytes, ip)
          else
            loaduvmFrom fuel (v + 1) ((off + pgsize) % 2 ^ 32) (left - n)
              (d.store v 0 bytes) ip
      | _ => none

/-- The panic is that the address is not that of a page. -/
def loaduvm (d : PageDir Page) (addr : Nat) (ip : Inode) (offset sz : Nat) :
    Option (Bool × PageDir Page × Inode) :=
  if addr % pgsize ≠ 0 then none
  else loaduvmFrom (npages sz) (addr / pgsize) offset sz d ip

/-- How a part of the loading ends: at the label `bad`, or with the size so far. -/
inductive Loaded (Page : Type) where
  | bad (d : PageDir Page) (m : Mem Page)
  | ok (sz : Nat) (d : PageDir Page) (ip : Inode) (m : Mem Page)

/-- The body of the loop, for a segment that is to be loaded. -/
def loadSegment (ph : Proghdr) (sz : Nat) (d : PageDir Page) (ip : Inode) (m : Mem Page) :
    Option (Loaded Page) :=
  if ph.memsz < ph.filesz then some (.bad d m)
  else if (ph.vaddr + ph.memsz) % 2 ^ 32 < ph.vaddr then some (.bad d m)
  else
    match d.allocuvm sz ((ph.vaddr + ph.memsz) % 2 ^ 32) m with
    | none => none
    | some (sz, d, m) =>
      if sz = 0 then some (.bad d m)
      else if ph.vaddr % pgsize ≠ 0 then some (.bad d m)
      else
        match loaduvm d ph.vaddr ip ph.off ph.filesz with
        | none => none
        | some (false, d, _) => some (.bad d m)
        | some (true, d, ip) => some (.ok sz d ip m)

/-- The loop of `exec` over `count` program headers from offset `off`. -/
def loadSegments : Nat → Nat → Nat → PageDir Page → Inode → Mem Page → Option (Loaded Page)
  | 0, _, sz, d, ip, m => some (.ok sz d ip m)
  | count + 1, off, sz, d, ip, m =>
    match ip.readi off proghdrSize with
    | (none, _) => some (.bad d m)
    | (some bytes, ip) =>
      if bytes.length ≠ proghdrSize then some (.bad d m)
      else if (proghdr bytes).type ≠ elfProgLoad then
        loadSegments count ((off + proghdrSize) % 2 ^ 32) sz d ip m
      else
        match loadSegment (proghdr bytes) sz d ip m with
        | none => none
        | some (.bad d m) => some (.bad d m)
        | some (.ok sz d ip m) =>
          loadSegments count ((off + proghdrSize) % 2 ^ 32) sz d ip m

/-! ## What a file describes -/

/-- The program headers of a file. -/
def headers (data : List UInt8) : Nat → Nat → List Proghdr
  | _, 0 => []
  | off, count + 1 =>
    proghdr ((data.drop off).take proghdrSize) ::
      headers data ((off + proghdrSize) % 2 ^ 32) count

/-- The segments that are to be loaded. -/
def segments (data : List UInt8) (off count : Nat) : List Proghdr :=
  (headers data off count).filter fun ph => ph.type = elfProgLoad

/-- Where the last segment ends. -/
def imageEnd (segments : List Proghdr) : Nat :=
  segments.foldl (fun high ph => max high (ph.vaddr + ph.memsz)) 0

/-- The byte of the last segment with the address in its file part, or 0. -/
def imageByte (data : List UInt8) (segments : List Proghdr) (a : Nat) : UInt8 :=
  segments.foldl
    (fun byte ph =>
      if ph.vaddr ≤ a ∧ a < ph.vaddr + ph.filesz then data.getD (ph.off + (a - ph.vaddr)) 0
      else byte) 0

/-! ## Loading one segment -/

theorem readi_file {bytes : List UInt8} {small : data.length < 2 ^ 32} {ip : Inode}
    (read : (Inode.file data small).readi off n = (some bytes, ip)) :
    bytes = (data.drop off).take n ∧ ip = .file data small ∧ off ≤ data.length := by
  simp only [Inode.readi] at read
  split at read
  · cases read
  · cases read
    exact ⟨rfl, rfl, by omega⟩

/-- The bytes of a file at some pages. -/
def placed (data : List UInt8) (v off left : Nat) (d : PageDir Page) (a : Nat) : Option UInt8 :=
  if v * pgsize ≤ a ∧ a < v * pgsize + left then data[off + (a - v * pgsize)]? else d.byteAt a

/-- Reading one page of a file is the first step of placing it. -/
theorem placed_store {page : Page} {w u : Bool} {old : Contents}
    (entry : d.pte v = some (.user page w u old))
    (size : n = if left < pgsize then left else pgsize)
    (whole : ((data.drop off).take n).length = n) (a : Nat) :
    placed data (v + 1) (off + pgsize) (left - n) (d.store v 0 ((data.drop off).take n)) a =
      placed data v off left d a := by
  have short : n ≤ pgsize := by
    rw [size]
    split <;> omega
  have rest (more : left - n ≠ 0) : n = pgsize := by
    split at size <;> omega
  unfold placed
  rw [PageDir.byteAt_store entry, whole, Nat.zero_add, Nat.sub_zero]
  by_cases later : (v + 1) * pgsize ≤ a ∧ a < (v + 1) * pgsize + (left - n)
  · have full := rest (by omega)
    rw [if_pos later, if_pos (by rw [Nat.add_mul] at later; omega)]
    congr 1
    rw [Nat.add_mul] at later ⊢
    omega
  · rw [if_neg later]
    by_cases here : a / pgsize = v ∧ 0 ≤ a % pgsize ∧ a % pgsize < n
    · have split_ := Nat.div_add_mod a pgsize
      rw [here.1, Nat.mul_comm] at split_
      have bound : n ≤ left := by
        rw [size]
        split <;> omega
      rw [if_pos here, if_pos (by omega), List.getElem?_take_of_lt here.2.2, List.getElem?_drop]
      congr 1
      omega
    · rw [if_neg here, if_neg]
      rintro ⟨low, high⟩
      unfold pgsize at *
      split at size <;> omega

theorem placed_zero (data : List UInt8) (v off : Nat) (d : PageDir Page) (a : Nat) :
    placed data v off 0 d a = d.byteAt a := by
  rw [placed, if_neg (by omega)]

/-- The offset of the next page does not wrap around before the file ends. -/
theorem placed_wrap (small : data.length < 2 ^ 32)
    (size : n = if left < pgsize then left else pgsize)
    (whole : ((data.drop off).take n).length = n) (a : Nat) :
    placed data v ((off + pgsize) % 2 ^ 32) (left - n) d a =
      placed data v (off + pgsize) (left - n) d a := by
  by_cases last : left - n = 0
  · rw [last, placed_zero, placed_zero]
  · have full : n = pgsize := by
      split at size <;> omega
    have positive : 0 < pgsize := by decide
    rw [List.length_take, List.length_drop] at whole
    rw [Nat.mod_eq_of_lt (by omega)]

theorem later_page {u : Nat} (size : n = if left < pgsize then left else pgsize) (after : v + 1 ≤ u)
    (before : u * pgsize < (v + 1) * pgsize + (left - n)) : u * pgsize < v * pgsize + left := by
  have whole := Nat.mul_le_mul_right pgsize after
  rw [Nat.add_mul, Nat.one_mul] at before whole
  split at size <;> omega

/-- All the pages that a segment of `left` bytes takes up are there. -/
def Present (d : PageDir Page) (v left : Nat) : Prop :=
  ∀ u, v ≤ u → u * pgsize < v * pgsize + left → ∃ page w a data, d.pte u = some (.user page w a data)

theorem Present.rewritten {d' : PageDir Page} (present : Present d v left) (same : d.Rewritten d') :
    Present d' v left := by
  intro u after before
  obtain ⟨page, w, a, data, entry⟩ := present u after before
  rcases same.cases u with ⟨none_, _⟩ | ⟨_, _, kernel, _⟩ | ⟨page, w, a, _, data, _, entry'⟩
  · rw [entry] at none_
    cases none_
  · rw [entry] at kernel
    cases kernel
  · exact ⟨page, w, a, data, entry'⟩

/-- `loaduvm` where the pages are there. -/
theorem loaduvmFrom_spec {fuel : Nat} (ip : Inode) (enough : left ≤ fuel * pgsize)
    (present : Present d v left) :
    ∃ all d' ip', loaduvmFrom fuel v off left d ip = some (all, d', ip') ∧ d.Rewritten d' ∧
      ∀ data small, ip = .file data small → all = true →
        ip' = ip ∧ ∀ a, d'.byteAt a = placed data v off left d a := by
  induction fuel generalizing v off left d ip with
  | zero =>
    obtain rfl : left = 0 := by omega
    refine ⟨true, d, ip, rfl, PageDir.Rewritten.refl d, ?_⟩
    intro data small _ _
    exact ⟨rfl, fun a => (placed_zero data v off d a).symm⟩
  | succ fuel ih =>
    rw [loaduvmFrom]
    split
    next empty =>
      subst empty
      refine ⟨true, d, ip, rfl, PageDir.Rewritten.refl d, ?_⟩
      intro data small _ _
      exact ⟨rfl, fun a => (placed_zero data v off d a).symm⟩
    next some_ =>
      obtain ⟨page, w, u, old, entry⟩ := present v le_rfl (by omega)
      rw [entry]
      generalize size : (if left < pgsize then left else pgsize) = n
      dsimp only
      rcases read : ip.readi off n with ⟨bytes, ip'⟩
      cases bytes with
      | none =>
        exact ⟨false, d, ip', rfl, PageDir.Rewritten.refl d, fun _ _ _ h => nomatch h⟩
      | some bytes =>
        have stored := PageDir.rewritten_store d v 0 bytes
        dsimp only
        split
        · exact ⟨false, _, ip', rfl, stored, fun _ _ _ h => nomatch h⟩
        · rename_i whole
          have more : left - n ≤ fuel * pgsize := by
            rw [Nat.add_mul] at enough
            rw [← size]
            split <;> omega
          have present' : Present (d.store v 0 bytes) (v + 1) (left - n) := by
            apply Present.rewritten _ stored
            intro u after before
            exact present u (by omega) (later_page size.symm after before)
          obtain ⟨all, d', ip'', ran, rewritten, contents⟩ :=
            ih ip' more present'
          refine ⟨all, d', ip'', ran, stored.trans rewritten, ?_⟩
          rintro data small rfl isAll
          obtain ⟨rfl, rfl, inside⟩ := readi_file read
          obtain ⟨same, bytes⟩ := contents data small rfl isAll
          refine ⟨same, ?_⟩
          intro a
          rw [bytes, ← placed_store entry size.symm (not_not.mp whole)]
          exact placed_wrap small size.symm (not_not.mp whole) a

/-! ## Address spaces while they are loaded -/

/-- All pages of the size so far are the user's, and the kernel's part is complete. -/
structure Loading (d : PageDir Page) (sz : Nat) : Prop where
  wf : d.Wf
  sized : d.Sized sz
  user : sz ≤ kernbase
  access : ∀ v, v < npages sz → d.uva2ka v = .ok
  kernel : ∀ i, 512 ≤ i → ((d.table i).isSome = true ↔ kernelTable i)

namespace Loading

variable {d d' : PageDir Page} {sz newsz : Nat}

theorem bare (wf : d.Wf) (bare : d.Bare) : Loading d 0 where
  wf := wf
  sized := by
    intro v user
    rw [bare.empty v user]
    simp [npages, pgsize]
  user := by decide
  access := by
    intro v inside
    simp [npages, pgsize] at inside
  kernel := fun i _ => bare.table i

theorem rewritten (loading : Loading d sz) (same : d.Rewritten d') : Loading d' sz where
  wf := same.wf loading.wf
  sized := same.sized loading.sized
  user := loading.user
  access := by
    intro v inside
    rw [same.uva2ka]
    exact loading.access v inside
  kernel := by
    rw [same.table]
    exact loading.kernel

theorem grown {page : Nat → Page} (loading : Loading d sz) (wf : d'.Wf) (le : sz ≤ newsz)
    (user : newsz < kernbase)
    (mapped : d.Mapped d' (npages sz) (npages newsz - npages sz) (PageDir.fresh page)) :
    Loading d' newsz where
  wf := wf
  sized := loading.sized.grow le mapped
  user := user.le
  access := by
    intro v inside
    by_cases old : v < npages sz
    · obtain ⟨page, w, data, entry⟩ := PageDir.uva2ka_eq_ok (loading.access v old)
      apply PageDir.uva2ka_ok wf
      rw [mapped.pte, if_neg (by omega)]
      exact entry
    · apply PageDir.uva2ka_ok wf
      rw [mapped.pte, if_pos (by omega)]
      rfl
  kernel := by
    intro i high
    rw [mapped.table, loading.kernel i high, or_iff_left_iff_imp]
    rintro ⟨u, low, inside, rfl⟩
    have more := PageDir.npages_mono le
    have bound := PageDir.npages_le_kernpage user.le
    have userPage : u < 524288 := lt_of_lt_of_le (by omega) bound
    unfold nptentries at high
    omega

/-- A page of the user's has bytes. -/
theorem byteAt (loading : Loading d sz) (inside : a / pgsize < npages sz) :
    ∃ byte, d.byteAt a = some byte := by
  obtain ⟨page, w, data, entry⟩ := PageDir.uva2ka_eq_ok (loading.access _ inside)
  refine ⟨data (a % pgsize), ?_⟩
  rw [PageDir.byteAt, entry]

end Loading

/-- What `allocuvm` can do while a program is loaded: new pages are zeroed. -/
theorem allocuvm_loading (loading : Loading d sz) (newsz : Nat) (m : Mem Page) :
    (∃ d' m', d.allocuvm sz newsz m = some (0, d', m') ∧ d'.Wf ∧
      m'.pool + d'.pages = m.pool + d.pages) ∨
    ∃ d' m', d.allocuvm sz newsz m = some (max sz newsz, d', m') ∧ Loading d' (max sz newsz) ∧
      m'.pool + d'.pages = m.pool + d.pages ∧
      ∀ a, a / pgsize < npages (max sz newsz) →
        d'.byteAt a = if a / pgsize < npages sz then d.byteAt a else some 0 := by
  rcases PageDir.allocuvm_cases loading.wf loading.sized m newsz with
    ⟨d', m', failed, wf, _, kept⟩ | ⟨less, same⟩ |
    ⟨le, user, page, d', m', grown, wf, mapped, kept⟩
  · exact .inl ⟨d', m', failed, wf, kept⟩
  · rw [max_eq_left less.le]
    refine .inr ⟨d, m, same, loading, rfl, ?_⟩
    intro a inside
    rw [if_pos inside]
  · rw [max_eq_right le]
    refine .inr ⟨d', m', grown, loading.grown wf le user mapped, kept, ?_⟩
    intro a inside
    by_cases old : a / pgsize < npages sz
    · rw [if_pos old, PageDir.byteAt, mapped.pte, if_neg (by omega)]
      rfl
    · rw [if_neg old, PageDir.byteAt, mapped.pte, if_pos (by omega)]
      rfl

/-- The fields of a header are words. -/
structure Proghdr.Words (ph : Proghdr) : Prop where
  vaddr : ph.vaddr < 2 ^ 32
  memsz : ph.memsz < 2 ^ 32

theorem proghdr_words (bytes : List UInt8) : (proghdr bytes).Words :=
  ⟨Bytes.get_lt (fun i => bytes.getD i 0) 8 4, Bytes.get_lt (fun i => bytes.getD i 0) 20 4⟩

theorem lt_npages (inside : v * pgsize < sz) : v < npages sz := by
  unfold npages pgsize at *
  omega

/-- What the body of the loop can do with a segment. -/
theorem loadSegment_cases (loading : Loading d sz) (words : ph.Words) (ip : Inode) (m : Mem Page) :
    (∃ d' m', loadSegment ph sz d ip m = some (.bad d' m') ∧ d'.Wf ∧
      m'.pool + d'.pages = m.pool + d.pages) ∨
    ∃ d' ip' m', loadSegment ph sz d ip m = some (.ok (max sz (ph.vaddr + ph.memsz)) d' ip' m') ∧
      Loading d' (max sz (ph.vaddr + ph.memsz)) ∧ m'.pool + d'.pages = m.pool + d.pages ∧
      ∀ data small, ip = .file data small → ip' = ip ∧ ph.filesz ≤ ph.memsz ∧
        ∀ a, a / pgsize < npages (max sz (ph.vaddr + ph.memsz)) →
          d'.byteAt a =
            if ph.vaddr ≤ a ∧ a < ph.vaddr + ph.filesz then data[ph.off + (a - ph.vaddr)]?
            else if a / pgsize < npages sz then d.byteAt a else some 0 := by
  have atBad : d.Wf ∧ m.pool + d.pages = m.pool + d.pages := ⟨loading.wf, rfl⟩
  unfold loadSegment
  split
  · exact .inl ⟨d, m, rfl, atBad⟩
  rename_i fileFits
  split
  · exact .inl ⟨d, m, rfl, atBad⟩
  rename_i noWrap
  have sum : (ph.vaddr + ph.memsz) % 2 ^ 32 = ph.vaddr + ph.memsz := by
    have vaddr := words.vaddr
    have memsz := words.memsz
    omega
  rw [sum]
  rcases allocuvm_loading loading (ph.vaddr + ph.memsz) m with
    ⟨d₁, m₁, failed, wf, kept⟩ | ⟨d₁, m₁, grown, loading₁, kept, zeroed⟩
  · rw [failed]
    exact .inl ⟨d₁, m₁, rfl, wf, kept⟩
  rw [grown]
  dsimp only
  split
  · exact .inl ⟨d₁, m₁, rfl, loading₁.wf, kept⟩
  split
  · exact .inl ⟨d₁, m₁, rfl, loading₁.wf, kept⟩
  rename_i aligned
  rw [not_not] at aligned
  have start : ph.vaddr / pgsize * pgsize = ph.vaddr :=
    Nat.div_mul_cancel (Nat.dvd_of_mod_eq_zero aligned)
  have present : Present d₁ (ph.vaddr / pgsize) ph.filesz := by
    intro u _ before
    rw [start] at before
    obtain ⟨page, w, data, entry⟩ := PageDir.uva2ka_eq_ok
      (loading₁.access u (lt_npages (lt_of_lt_of_le before (by omega))))
    exact ⟨page, w, true, data, entry⟩
  have enough : ph.filesz ≤ npages ph.filesz * pgsize := by
    unfold npages pgsize
    omega
  obtain ⟨all, d', ip', loaded, rewritten, contents⟩ :=
    loaduvmFrom_spec ip enough present
  rw [loaduvm, if_neg (not_not.mpr aligned), loaded]
  cases all with
  | false => exact .inl ⟨d', m₁, rfl, rewritten.wf loading₁.wf, by rw [rewritten.pages, kept]⟩
  | true =>
    refine .inr ⟨d', ip', m₁, rfl, loading₁.rewritten rewritten, by rw [rewritten.pages, kept], ?_⟩
    intro data small isFile
    obtain ⟨same, bytes⟩ := contents data small isFile rfl
    refine ⟨same, by omega, ?_⟩
    intro a inside
    rw [bytes, placed, start, zeroed a inside]

/-! ## The image -/

theorem imageEnd_append (hs : List Proghdr) (ph : Proghdr) :
    imageEnd (hs ++ [ph]) = max (imageEnd hs) (ph.vaddr + ph.memsz) := by
  rw [imageEnd, List.foldl_append]
  rfl

theorem imageByte_append (data : List UInt8) (hs : List Proghdr) (ph : Proghdr) (a : Nat) :
    imageByte data (hs ++ [ph]) a =
      if ph.vaddr ≤ a ∧ a < ph.vaddr + ph.filesz then data.getD (ph.off + (a - ph.vaddr)) 0
      else imageByte data hs a := by
  rw [imageByte, List.foldl_append]
  rfl

/-- Past the file parts of all segments. -/
theorem imageByte_eq_zero (past : ∀ ph ∈ hs, ph.vaddr + ph.filesz ≤ a) :
    imageByte data hs a = 0 := by
  induction hs using List.reverseRecOn with
  | nil => rfl
  | append_singleton hs ph ih =>
    have here := past ph (by simp)
    rw [imageByte_append, if_neg (by omega)]
    exact ih fun ph member => past ph (by simp [member])

/-- An address space holds what the segments describe. -/
structure Image (data : List UInt8) (hs : List Proghdr) (sz : Nat) (d : PageDir Page) : Prop where
  size : sz = imageEnd hs
  below : ∀ ph ∈ hs, ph.vaddr + ph.filesz ≤ sz
  bytes : ∀ a, a / pgsize < npages sz → d.byteAt a = some (imageByte data hs a)

theorem Image.nil (data : List UInt8) (d : PageDir Page) : Image data [] 0 d where
  size := rfl
  below := by simp
  bytes := by
    intro a inside
    simp [npages, pgsize] at inside

theorem le_of_npages_le (past : ¬a / pgsize < npages sz) : sz ≤ a := by
  unfold npages pgsize at *
  omega

/-- One more segment. -/
theorem Image.snoc {d' : PageDir Page} (image : Image data hs sz d)
    (loading : Loading d' (max sz (ph.vaddr + ph.memsz))) (fits : ph.filesz ≤ ph.memsz)
    (bytes : ∀ a, a / pgsize < npages (max sz (ph.vaddr + ph.memsz)) →
      d'.byteAt a =
        if ph.vaddr ≤ a ∧ a < ph.vaddr + ph.filesz then data[ph.off + (a - ph.vaddr)]?
        else if a / pgsize < npages sz then d.byteAt a else some 0) :
    Image data (hs ++ [ph]) (max sz (ph.vaddr + ph.memsz)) d' where
  size := by rw [imageEnd_append, image.size]
  below := by
    intro other member
    rw [List.mem_append, List.mem_singleton] at member
    rcases member with old | rfl
    · exact le_trans (image.below other old) (Nat.le_max_left _ _)
    · exact le_trans (by omega) (Nat.le_max_right _ _)
  bytes := by
    intro a inside
    have stored := bytes a inside
    rw [imageByte_append]
    by_cases covered : ph.vaddr ≤ a ∧ a < ph.vaddr + ph.filesz
    · rw [if_pos covered] at stored ⊢
      obtain ⟨byte, there⟩ := loading.byteAt inside
      rw [there] at stored
      rw [there, List.getD_eq_getElem?_getD, ← stored]
      rfl
    · rw [if_neg covered] at stored ⊢
      rw [stored]
      split
      · rename_i old
        exact image.bytes a old
      · rename_i new
        rw [imageByte_eq_zero]
        intro other member
        exact le_trans (image.below other member) (le_of_npages_le new)

theorem segments_succ (data : List UInt8) (off count : Nat) :
    segments data off (count + 1) =
      if (proghdr ((data.drop off).take proghdrSize)).type = elfProgLoad then
        proghdr ((data.drop off).take proghdrSize) ::
          segments data ((off + proghdrSize) % 2 ^ 32) count
      else segments data ((off + proghdrSize) % 2 ^ 32) count := by
  unfold segments
  rw [headers, List.filter_cons]
  simp only [decide_eq_true_eq]

/-- What is left of the pages in either end of the loading. -/
def Loaded.Good (total : Multiset Page) : Loaded Page → Prop
  | .bad d m => d.Wf ∧ m.pool + d.pages = total
  | .ok sz d _ m => Loading d sz ∧ m.pool + d.pages = total

/-- The loop over the program headers. -/
theorem loadSegments_spec {count : Nat} (ip : Inode) (loading : Loading d sz) (m : Mem Page) :
    ∃ r, loadSegments count off sz d ip m = some r ∧ r.Good (m.pool + d.pages) ∧
      ∀ data small, ip = .file data small → ∀ hs, Image data hs sz d →
        ∀ sz' d' ip' m', r = .ok sz' d' ip' m' → Image data (hs ++ segments data off count) sz' d' := by
  induction count generalizing off sz d ip m with
  | zero =>
    refine ⟨.ok sz d ip m, rfl, ⟨loading, rfl⟩, ?_⟩
    rintro data small rfl hs image sz' d' ip' m' same
    cases same
    simpa [segments, headers] using image
  | succ count ih =>
    rw [loadSegments]
    rcases read : ip.readi off proghdrSize with ⟨bytes, ip₁⟩
    cases bytes with
    | none => exact ⟨.bad d m, rfl, ⟨loading.wf, rfl⟩, fun _ _ _ _ _ _ _ _ _ h => nomatch h⟩
    | some bytes =>
      dsimp only
      split
      · exact ⟨.bad d m, rfl, ⟨loading.wf, rfl⟩, fun _ _ _ _ _ _ _ _ _ h => nomatch h⟩
      split
      · rename_i notLoad
        obtain ⟨r, ran, good, built⟩ := ih ip₁ loading m
        refine ⟨r, ran, good, ?_⟩
        rintro data small rfl hs image sz' d' ip' m' same
        obtain ⟨rfl, rfl, _⟩ := readi_file read
        rw [segments_succ, if_neg notLoad]
        exact built data small rfl hs image sz' d' ip' m' same
      · rename_i isLoad
        rw [not_not] at isLoad
        rcases loadSegment_cases loading (proghdr_words bytes) ip₁ m with
          ⟨d₁, m₁, failed, wf, kept⟩ | ⟨d₁, ip₂, m₁, loaded, loading₁, kept, contents⟩
        · rw [failed]
          exact ⟨.bad d₁ m₁, rfl, ⟨wf, kept⟩, fun _ _ _ _ _ _ _ _ _ h => nomatch h⟩
        · rw [loaded]
          dsimp only
          obtain ⟨r, ran, good, built⟩ := ih ip₂ loading₁ m₁
          rw [kept] at good
          refine ⟨r, ran, good, ?_⟩
          rintro data small rfl hs image sz' d' ip' m' same
          obtain ⟨rfl, rfl, _⟩ := readi_file read
          obtain ⟨rfl, fits, placedBytes⟩ := contents data small rfl
          rw [segments_succ, if_pos isLoad, List.append_cons]
          exact built data small rfl _ (image.snoc loading₁ fits placedBytes) sz' d' ip' m' same

/-! ## Segments that can be loaded -/

theorem readi_inFile (small : data.length < 2 ^ 32) (inFile : off + n ≤ data.length) :
    (Inode.file data small).readi off n = (some ((data.drop off).take n), .file data small) ∧
      ((data.drop off).take n).length = n := by
  constructor
  · rw [Inode.readi, if_neg]
    rw [Nat.mod_eq_of_lt (by omega)]
    omega
  · rw [List.length_take, List.length_drop]
    omega

/-- `loaduvm` reads all of what is in the file. -/
theorem loaduvmFrom_reads (small : data.length < 2 ^ 32) (fuel : Nat) (present : Present d v left)
    (inFile : left = 0 ∨ off + left ≤ data.length) :
    ∃ d', loaduvmFrom fuel v off left d (.file data small) = some (true, d', .file data small) := by
  induction fuel generalizing v off left d with
  | zero => exact ⟨d, rfl⟩
  | succ fuel ih =>
    rw [loaduvmFrom]
    split
    · exact ⟨d, rfl⟩
    · rename_i some_
      obtain ⟨page, w, u, old, entry⟩ := present v le_rfl (by omega)
      rw [entry]
      generalize size : (if left < pgsize then left else pgsize) = n
      have short : n ≤ left := by
        rw [← size]
        split <;> omega
      obtain ⟨read, whole⟩ := readi_inFile small (show off + n ≤ data.length by omega)
      dsimp only
      rw [read]
      dsimp only
      rw [if_neg (not_not.mpr whole)]
      apply ih
      · apply Present.rewritten _ (PageDir.rewritten_store d v 0 _)
        intro u after before
        exact present u (by omega) (later_page size.symm after before)
      · by_cases last : left - n = 0
        · exact .inl last
        · have full : n = pgsize := by
            rw [← size] at last ⊢
            split at last <;> split <;> omega
          right
          rw [Nat.mod_eq_of_lt (by omega)]
          omega

/-- A segment that is in the file and below the kernel is loaded, if there is memory. -/
theorem loadSegment_of_has (small : data.length < 2 ^ 32) (ph : Proghdr) {m : Mem Page}
    (loading : Loading d sz) (fits : ph.filesz ≤ ph.memsz)
    (inFile : ph.off + ph.filesz ≤ data.length) (aligned : ph.vaddr % pgsize = 0)
    (grows : sz ≤ ph.vaddr + ph.memsz) (some_ : 0 < ph.vaddr + ph.memsz)
    (user : ph.vaddr + ph.memsz < kernbase)
    (has : m.Has (n + 2 * (npages (ph.vaddr + ph.memsz) - npages sz))) :
    ∃ d' m', loadSegment ph sz d (.file data small) m =
        some (.ok (ph.vaddr + ph.memsz) d' (.file data small) m') ∧
      Loading d' (ph.vaddr + ph.memsz) ∧ m'.Has n := by
  have sum : (ph.vaddr + ph.memsz) % 2 ^ 32 = ph.vaddr + ph.memsz := by
    unfold kernbase at user
    omega
  obtain ⟨d₁, m₁, grown, left⟩ := PageDir.allocuvm_of_has loading.wf loading.sized grows user has
  have loading₁ : Loading d₁ (ph.vaddr + ph.memsz) := by
    rcases allocuvm_loading loading (ph.vaddr + ph.memsz) m with
      ⟨_, _, failed, _⟩ | ⟨_, _, grown', loading', _⟩
    · rw [grown] at failed
      have zero := congrArg Prod.fst (Option.some.inj failed)
      dsimp only at zero
      omega
    · rw [max_eq_right grows] at grown' loading'
      rw [grown] at grown'
      cases grown'
      exact loading'
  have present : Present d₁ (ph.vaddr / pgsize) ph.filesz := by
    intro u _ before
    rw [Nat.div_mul_cancel (Nat.dvd_of_mod_eq_zero aligned)] at before
    obtain ⟨page, w, data, entry⟩ := PageDir.uva2ka_eq_ok
      (loading₁.access u (lt_npages (lt_of_lt_of_le before (by omega))))
    exact ⟨page, w, true, data, entry⟩
  obtain ⟨d', loaded⟩ := loaduvmFrom_reads small (npages ph.filesz) present (.inr inFile)
  have enough : ph.filesz ≤ npages ph.filesz * pgsize := by
    unfold npages pgsize
    omega
  obtain ⟨_, _, _, loaded', rewritten, _⟩ :=
    loaduvmFrom_spec (.file data small) enough present
  rw [loaded] at loaded'
  cases loaded'
  refine ⟨d', m₁, ?_, loading₁.rewritten rewritten, left⟩
  rw [loadSegment, if_neg (Nat.not_lt.mpr fits), sum, if_neg (by omega), grown]
  dsimp only
  rw [if_neg (by omega), if_neg (not_not.mpr aligned), loaduvm, if_neg (not_not.mpr aligned), loaded]

end Xv6.Vm
