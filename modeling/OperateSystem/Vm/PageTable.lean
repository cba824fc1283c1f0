import OperateSystem.Vm.Riscv

/-!
# Page tables

`vm.c`: three-level page tables in physical memory, mapped, unmapped, copied and
freed page by page.  Memory is a function from page numbers to the 512 words of
the page.  `kalloc` takes the first page of the free list and `kfree` puts a page
back in front; both fill the page with junk.

A result `error` is the end of the kernel: a panic, or an access through the null
page.  Functions that return 0 or -1 return `true` or `false` here.
-/

namespace OperateSystem.Vm

/-- The contents of a page. -/
abbrev Page := Fin 512 → Word

/-- Physical memory and the list of free pages. -/
structure Machine where
  mem : ℕ → Page
  free : List ℕ

/-- How the kernel can come to an end. -/
inductive Fault
  | panic (msg : String)
  | null
  deriving DecidableEq

namespace Machine

/-- A word of memory gets a value. -/
def store (m : Machine) (page : ℕ) (i : Fin 512) (word : Word) : Machine :=
  { m with mem := Function.update m.mem page (Function.update (m.mem page) i word) }

/-- A page gets new contents. -/
def fill (m : Machine) (page : ℕ) (content : Page) : Machine :=
  { m with mem := Function.update m.mem page content }

/-- `memset(page, 0, PGSIZE)`. -/
def zero (m : Machine) (page : ℕ) : Machine := m.fill page fun _ => 0

/-- `kalloc()`. -/
def kalloc (m : Machine) : Option ℕ × Machine :=
  match m.free with
  | [] => (none, m)
  | page :: free =>
      (some page, { m with free := free }.fill page fun _ => 0x0505050505050505)

/-- `kfree(page)`. -/
def kfree (m : Machine) (page : ℕ) : Machine :=
  { m with free := page :: m.free }.fill page fun _ => 0x0101010101010101

end Machine

/-- A `pte_t *`: a word of a page. -/
abbrev Slot := ℕ × Fin 512

/-- One turn of the loop in `walk`: go to the next table, or put a new one there. -/
def walkLevel (m : Machine) (pagetable : ℕ) (i : Fin 512) (alloc : Bool) : Option ℕ × Machine :=
  let pte := m.mem pagetable i
  if Valid pte then (some (pte2pa pte), m)
  else if alloc then
    match m.kalloc with
    | (none, m) => (none, m)
    | (some page, m) => (some page, (m.zero page).store pagetable i (pa2pte page ||| pteV))
  else (none, m)

/-- `walk(pagetable, va, alloc)`. -/
def walk (m : Machine) (pagetable va : ℕ) (alloc : Bool) :
    Except Fault (Option Slot × Machine) :=
  if maxVa ≤ va then .error (.panic "walk")
  else
    match walkLevel m pagetable (px 2 va) alloc with
    | (none, m) => .ok (none, m)
    | (some table, m) =>
        match walkLevel m table (px 1 va) alloc with
        | (none, m) => .ok (none, m)
        | (some table, m) => .ok (some (table, px 0 va), m)

/-- `walk(pagetable, va, 0)`, which changes nothing. -/
def find (m : Machine) (pagetable va : ℕ) : Except Fault (Option Slot) :=
  (walk m pagetable va false).map Prod.fst

/-- `walkaddr(pagetable, va)`: the page, or none for 0, which is also the address of the
first page. -/
def walkaddr (m : Machine) (pagetable va : ℕ) : Except Fault (Option ℕ) :=
  if maxVa ≤ va then .ok none
  else do
    let some (table, i) ← find m pagetable va | return none
    let pte := m.mem table i
    if ¬ Valid pte then return none
    else if pte &&& pteU = 0 then return none
    else return if pte2pa pte = 0 then none else some (pte2pa pte)

/-- The loop of `mappages` from address `a` on.  The fuel counts the pages up to
`MAXVA`, where `walk` panics. -/
def mappagesLoop (pagetable last : ℕ) (perm : Word) :
    (fuel : ℕ) → (a page : ℕ) → Machine → Except Fault (Bool × Machine)
  | 0, _, _, _ => .error (.panic "walk")
  | fuel + 1, a, page, m => do
      let (pte, m) ← walk m pagetable a true
      let some (table, i) := pte | return (false, m)
      if Valid (m.mem table i) then throw (.panic "remap")
      else
        let m := m.store table i (pa2pte page ||| perm ||| pteV)
        if a = last then return (true, m)
        else mappagesLoop pagetable last perm fuel (a + pgSize) (page + 1) m

/-- `mappages(pagetable, va, size, pa, perm)`, with `pa` the address of `page`. -/
def mappages (m : Machine) (pagetable va size page : ℕ) (perm : Word) :
    Except Fault (Bool × Machine) :=
  let a := pgRoundDown va
  let last := pgRoundDown (u64 (va + size - 1))
  mappagesLoop pagetable last perm ((maxVa - a) / pgSize + 1) a page m

/-- The loop of `uvmunmap`, over `npages` pages from address `a` on. -/
def uvmunmapLoop (pagetable : ℕ) (doFree : Bool) :
    (npages a : ℕ) → Machine → Except Fault Machine
  | 0, _, m => .ok m
  | npages + 1, a, m => do
      let some (table, i) ← find m pagetable a | throw (.panic "uvmunmap: walk")
      let pte := m.mem table i
      if ¬ Valid pte then throw (.panic "uvmunmap: not mapped")
      else if pteFlags pte = pteV then throw (.panic "uvmunmap: not a leaf")
      else
        let m := if doFree then m.kfree (pte2pa pte) else m
        uvmunmapLoop pagetable doFree npages (a + pgSize) (m.store table i 0)

/-- `uvmunmap(pagetable, va, npages, do_free)`. -/
def uvmunmap (m : Machine) (pagetable va npages : ℕ) (doFree : Bool) : Except Fault Machine :=
  if va % pgSize ≠ 0 then .error (.panic "uvmunmap: not aligned")
  else uvmunmapLoop pagetable doFree npages va m

/-- `uvmcreate()`. -/
def uvmcreate (m : Machine) : Option ℕ × Machine :=
  match m.kalloc with
  | (none, m) => (none, m)
  | (some page, m) => (some page, m.zero page)

/-- The common body of `uvmdealloc` and `kvmdealloc`, which differ in whether the
pages are freed. -/
def dealloc (doFree : Bool) (m : Machine) (pagetable oldsz newsz : ℕ) :
    Except Fault (ℕ × Machine) :=
  if oldsz ≤ newsz then .ok (oldsz, m)
  else if pgRoundUp newsz < pgRoundUp oldsz then do
    let npages := (pgRoundUp oldsz - pgRoundUp newsz) / pgSize
    let m ← uvmunmap m pagetable (pgRoundUp newsz) npages doFree
    return (newsz, m)
  else .ok (newsz, m)

/-- `uvmdealloc(pagetable, oldsz, newsz)`. -/
def uvmdealloc : Machine → (pagetable oldsz newsz : ℕ) → Except Fault (ℕ × Machine) :=
  dealloc true

/-- `kvmdealloc(k_pagetable, oldsz, newsz)`. -/
def kvmdealloc : Machine → (pagetable oldsz newsz : ℕ) → Except Fault (ℕ × Machine) :=
  dealloc false

/-- The loop of `uvmalloc`, over `npages` pages from address `a` on; `oldsz` is
rounded up. -/
def uvmallocLoop (pagetable oldsz : ℕ) :
    (npages a : ℕ) → Machine → Except Fault (Bool × Machine)
  | 0, _, m => .ok (true, m)
  | npages + 1, a, m => do
      let (some page, m) := m.kalloc
        | do
            let (_, m) ← uvmdealloc m pagetable a oldsz
            return (false, m)
      let m := m.zero page
      let (ok, m) ← mappages m pagetable a pgSize page (pteW ||| pteX ||| pteR ||| pteU)
      if ok then uvmallocLoop pagetable oldsz npages (a + pgSize) m
      else
        let (_, m) ← uvmdealloc (m.kfree page) pagetable a oldsz
        return (false, m)

/-- `uvmalloc(pagetable, oldsz, newsz)`; it returns 0 on error. -/
def uvmalloc (m : Machine) (pagetable oldsz newsz : ℕ) : Except Fault (ℕ × Machine) :=
  if newsz < oldsz then .ok (oldsz, m)
  else do
    let oldsz := pgRoundUp oldsz
    let (ok, m) ← uvmallocLoop pagetable oldsz ((newsz - oldsz + (pgSize - 1)) / pgSize) oldsz m
    return (if ok then newsz else 0, m)

/-- `freewalk` and `freeallocatewalk`, which differ in what they do at a leaf: the
first panics, the second goes on.  The fuel bounds the depth of the recursion,
which the levels of a page table do. -/
def releaseWalk (leafPanics : Bool) : (fuel : ℕ) → (pagetable : ℕ) → Machine →
    Except Fault Machine
  | 0, _, _ => .error (.panic "kernel stack")
  | fuel + 1, pagetable, m => do
      let m ← List.foldlM (fun (m : Machine) (i : Fin 512) =>
        let pte := m.mem pagetable i
        if Valid pte ∧ ¬ Leaf pte then do
          let m ← releaseWalk leafPanics fuel (pte2pa pte) m
          return m.store pagetable i 0
        else if Valid pte ∧ leafPanics = true then throw (.panic "freewalk: leaf")
        else return m) m (List.finRange 512)
      return m.kfree pagetable

/-- `freewalk(pagetable)`. -/
def freewalk (m : Machine) (pagetable : ℕ) : Except Fault Machine := releaseWalk true 4 pagetable m

/-- `freeallocatewalk(k_pagetable)`. -/
def freeallocatewalk (m : Machine) (pagetable : ℕ) : Except Fault Machine :=
  releaseWalk false 4 pagetable m

/-- `kvmfree(k_pagetable)`. -/
def kvmfree : Machine → ℕ → Except Fault Machine := freeallocatewalk

/-- `uvmfree(pagetable, sz)`. -/
def uvmfree (m : Machine) (pagetable sz : ℕ) : Except Fault Machine := do
  let m ← (if 0 < sz then uvmunmap m pagetable 0 (pgRoundUp sz / pgSize) true else .ok m)
  freewalk m pagetable

/-- The loop of `uvmcopy`, over `npages` pages from address `i` on. -/
def uvmcopyLoop (old new : ℕ) : (npages i : ℕ) → Machine → Except Fault (Bool × Machine)
  | 0, _, m => .ok (true, m)
  | npages + 1, i, m => do
      let some (table, j) ← find m old i | throw (.panic "uvmcopy: pte should exist")
      let pte := m.mem table j
      if ¬ Valid pte then throw (.panic "uvmcopy: page not present")
      else
        let (some page, m) := m.kalloc
          | do
              let m ← uvmunmap m new 0 (i / pgSize) true
              return (false, m)
        let m := m.fill page (m.mem (pte2pa pte))
        let (ok, m) ← mappages m new i pgSize page (pteFlags pte)
        if ok then uvmcopyLoop old new npages (i + pgSize) m
        else
          let m ← uvmunmap (m.kfree page) new 0 (i / pgSize) true
          return (false, m)

/-- `uvmcopy(old, new, sz)`. -/
def uvmcopy (m : Machine) (old new sz : ℕ) : Except Fault (Bool × Machine) :=
  uvmcopyLoop old new ((sz + (pgSize - 1)) / pgSize) 0 m

/-- The loop of `kvmcopy`, over `npages` pages from address `i` on. -/
def kvmcopyLoop (old new : ℕ) : (npages i : ℕ) → Machine → Except Fault (Bool × Machine)
  | 0, _, m => .ok (true, m)
  | npages + 1, i, m => do
      let some (table, j) ← find m old i | throw (.panic "kvmcopy: pte should exist")
      let pte := m.mem table j
      if ¬ Valid pte then throw (.panic "kvmcopy: page not present")
      else
        let (ok, m) ← mappages m new i pgSize (pte2pa pte) (pteFlags pte &&& ~~~pteU)
        if ok then kvmcopyLoop old new npages (i + pgSize) m
        else
          let m ← uvmunmap m new 0 (i / pgSize) false
          return (false, m)

/-- `kvmcopy(old, new, st, sz)`. -/
def kvmcopy (L : Layout) (m : Machine) (old new st sz : ℕ) : Except Fault (Bool × Machine) :=
  if L.plic * pgSize < sz then .ok (false, m)
  else kvmcopyLoop old new ((sz - pgRoundUp st + (pgSize - 1)) / pgSize) (pgRoundUp st) m

/-- `uvmclear(pagetable, va)`. -/
def uvmclear (m : Machine) (pagetable va : ℕ) : Except Fault Machine := do
  let some (table, i) ← find m pagetable va | throw (.panic "uvmclear")
  return m.store table i (m.mem table i &&& ~~~pteU)

/-- The common body of `kvmmap` and `kvmmap_proc`. -/
def kvmmapInto (msg : String) (m : Machine) (pagetable va page sz : ℕ) (perm : Word) :
    Except Fault Machine := do
  let (ok, m) ← mappages m pagetable va sz page perm
  if ok then return m else throw (.panic msg)

/-- `kvmmap(va, pa, sz, perm)`, with the global kernel page table as an argument. -/
def kvmmap : Machine → (pagetable va page sz : ℕ) → Word → Except Fault Machine :=
  kvmmapInto "kvmmap"

/-- `kvmmap_proc(k_pagetable, va, pa, sz, perm)`. -/
def kvmmapProc : Machine → (pagetable va page sz : ℕ) → Word → Except Fault Machine :=
  kvmmapInto "kvmmap_proc"

/-- `kvminit()`: the global kernel page table.  A failed `kalloc` is not checked. -/
def kvminit (L : Layout) (m : Machine) : Except Fault (ℕ × Machine) := do
  let (some page, m) := m.kalloc | throw .null
  let m := m.zero page
  let m ← kvmmap m page (L.uart0 * pgSize) L.uart0 pgSize (pteR ||| pteW)
  let m ← kvmmap m page (L.virtio0 * pgSize) L.virtio0 pgSize (pteR ||| pteW)
  let m ← kvmmap m page (L.clint * pgSize) L.clint 0x10000 (pteR ||| pteW)
  let m ← kvmmap m page (L.plic * pgSize) L.plic 0x400000 (pteR ||| pteW)
  let m ← kvmmap m page (L.kernbase * pgSize) L.kernbase ((L.etext - L.kernbase) * pgSize)
    (pteR ||| pteX)
  let m ← kvmmap m page (L.etext * pgSize) L.etext ((L.phystop - L.etext) * pgSize)
    (pteR ||| pteW)
  let m ← kvmmap m page (trampoline * pgSize) L.trampolinePa pgSize (pteR ||| pteX)
  return (page, m)

/-- `kvminit_proc()`: the kernel page table of a process, which leaves out `CLINT`.
A failed `kalloc` is not checked. -/
def kvminitProc (L : Layout) (m : Machine) : Except Fault (ℕ × Machine) := do
  let (some page, m) := m.kalloc | throw .null
  let m := m.zero page
  let m ← kvmmapProc m page (L.uart0 * pgSize) L.uart0 pgSize (pteR ||| pteW)
  let m ← kvmmapProc m page (L.virtio0 * pgSize) L.virtio0 pgSize (pteR ||| pteW)
  let m ← kvmmapProc m page (L.plic * pgSize) L.plic 0x400000 (pteR ||| pteW)
  let m ← kvmmapProc m page (L.kernbase * pgSize) L.kernbase ((L.etext - L.kernbase) * pgSize)
    (pteR ||| pteX)
  let m ← kvmmapProc m page (L.etext * pgSize) L.etext ((L.phystop - L.etext) * pgSize)
    (pteR ||| pteW)
  let m ← kvmmapProc m page (trampoline * pgSize) L.trampolinePa pgSize (pteR ||| pteX)
  return (page, m)

/-- Byte `k` of a word gets a value. -/
def setByte (word : Word) (k : ℕ) (byte : BitVec 8) : Word :=
  (word &&& ~~~((0xFF : Word) <<< (8 * k))) ||| (byte.zeroExtend 64 <<< (8 * k))

/-- `memmove(page + ofs, src, n)` for bytes that stay within the page. -/
def Machine.write (m : Machine) (page ofs : ℕ) : List (BitVec 8) → Machine
  | [] => m
  | byte :: bytes =>
      let i : Fin 512 := ⟨ofs / 8 % 512, Nat.mod_lt _ (by decide)⟩
      (m.store page i (setByte (m.mem page i) (ofs % 8) byte)).write page (ofs + 1) bytes

/-- The loop of `copyout`; the fuel is the number of bytes left. -/
def copyoutLoop (pagetable : ℕ) : (fuel : ℕ) → (dstva : ℕ) → List (BitVec 8) → Machine →
    Except Fault (Bool × Machine)
  | 0, _, _, m => .ok (true, m)
  | fuel + 1, dstva, src, m =>
      if src = [] then .ok (true, m)
      else do
        let va0 := pgRoundDown dstva
        let some page ← walkaddr m pagetable va0 | return (false, m)
        let n := min (pgSize - (dstva - va0)) src.length
        copyoutLoop pagetable fuel (va0 + pgSize) (src.drop n)
          (m.write page (dstva - va0) (src.take n))

/-- `copyout(pagetable, dstva, src, len)`. -/
def copyout (m : Machine) (pagetable dstva : ℕ) (src : List (BitVec 8)) :
    Except Fault (Bool × Machine) :=
  copyoutLoop pagetable src.length dstva src m

/-- Byte `ofs` of a page. -/
def byteAt (content : Page) (ofs : ℕ) : BitVec 8 :=
  (content ⟨ofs / 8 % 512, Nat.mod_lt _ (by decide)⟩).extractLsb' (8 * (ofs % 8)) 8

/-- `memmove(dst, page + ofs, n)` for bytes that lie within the page. -/
def Machine.read (m : Machine) (page ofs n : ℕ) : List (BitVec 8) :=
  (List.range' ofs n).map (byteAt (m.mem page))

/-- The loop of `copyin`; the fuel is the number of bytes left. -/
def copyinLoop (m : Machine) (pagetable : ℕ) : (fuel srcva len : ℕ) →
    Except Fault (Option (List (BitVec 8)))
  | 0, _, _ => .ok (some [])
  | fuel + 1, srcva, len =>
      if len = 0 then .ok (some [])
      else do
        let va0 := pgRoundDown srcva
        let some page ← walkaddr m pagetable va0 | return none
        let n := min (pgSize - (srcva - va0)) len
        let some rest ← copyinLoop m pagetable fuel (va0 + pgSize) (len - n) | return none
        return some (m.read page (srcva - va0) n ++ rest)

/-- `copyin(pagetable, dst, srcva, len)`: the bytes that come to `dst`, or none for -1. -/
def copyin (m : Machine) (pagetable srcva len : ℕ) : Except Fault (Option (List (BitVec 8))) :=
  copyinLoop m pagetable len srcva len

/-- The loop of `copyinstr` over the bytes of one page: whether one of them is the NUL, and
what is stored. -/
def copyinstrPage : List (BitVec 8) → Bool × List (BitVec 8)
  | [] => (false, [])
  | ch :: rest =>
      if ch = 0 then (true, [0])
      else
        let (gotNull, stored) := copyinstrPage rest
        (gotNull, ch :: stored)

/-- The loop of `copyinstr` over the pages; the fuel is the number of bytes that may still be
stored. -/
def copyinstrLoop (m : Machine) (pagetable : ℕ) : (fuel srcva max : ℕ) →
    Except Fault (Bool × List (BitVec 8))
  | 0, _, _ => .ok (false, [])
  | fuel + 1, srcva, max =>
      if max = 0 then .ok (false, [])
      else do
        let va0 := pgRoundDown srcva
        let some page ← walkaddr m pagetable va0 | return (false, [])
        let n := min (pgSize - (srcva - va0)) max
        let (gotNull, stored) := copyinstrPage (m.read page (srcva - va0) n)
        if gotNull then return (true, stored)
        else
          let (ok, rest) ← copyinstrLoop m pagetable fuel (va0 + pgSize) (max - n)
          return (ok, stored ++ rest)

/-- `copyinstr(pagetable, dst, srcva, max)`, and what is stored at `dst`. -/
def copyinstr (m : Machine) (pagetable srcva max : ℕ) : Except Fault (Bool × List (BitVec 8)) :=
  copyinstrLoop m pagetable max srcva max

/-- `uvminit(pagetable, src, sz)`.  Neither a failed `kalloc` nor a failed
`mappages` is checked. -/
def uvminit (m : Machine) (pagetable : ℕ) (src : List (BitVec 8)) : Except Fault Machine :=
  if pgSize ≤ src.length then .error (.panic "inituvm: more than a page")
  else do
    let (some page, m) := m.kalloc | throw .null
    let m := m.zero page
    let (_, m) ← mappages m pagetable 0 pgSize page (pteW ||| pteR ||| pteX ||| pteU)
    return m.write page 0 src

/-- `vmprint(pgtbl, level)`, of which only the panic matters here. -/
def vmprint (m : Machine) : (levels : ℕ) → (pagetable : ℕ) → Except Fault Unit
  | 0, _ => .error (.panic "vmprint: wrong")
  | levels + 1, pagetable =>
      List.foldlM (fun _ (i : Fin 512) =>
        let pte := m.mem pagetable i
        if Valid pte ∧ ¬ Leaf pte then vmprint m levels (pte2pa pte) else .ok ()) ()
        (List.finRange 512)

end OperateSystem.Vm
