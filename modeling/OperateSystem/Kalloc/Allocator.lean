import Mathlib.Algebra.Group.Nat.Defs
import Mathlib.Logic.Function.Basic
import Mathlib.Data.List.Nodup

/-!
# The per-CPU page allocator

Physical memory is handed out in whole pages.  Every CPU has a free list of its
own, `kmems[cpu]`, threaded through the free pages: the first word of a free
page is the address of the next one.  This module embeds `kalloc.c`: the lock
regions that pop and push one page, and the boot-time loop `kinit` that frees
every page between the end of the kernel and the end of memory.

The CPU count, the first address after the kernel and the end of physical
memory come from headers and the linker script, so they are parameters.
-/

namespace OperateSystem.Kalloc

/-- Bytes per page. -/
def pgsize : ℕ := 4096

/-- `PGROUNDUP` on addresses that do not wrap. -/
def pgroundup (sz : ℕ) : ℕ := (sz + pgsize - 1) / pgsize * pgsize

/-- The boot constants the allocator is compiled with: `NCPU`, the linker
symbol `end`, and `PHYSTOP`.  The kernel image is not empty, memory ends on a
page boundary, and no address computation of the allocator wraps. -/
structure Layout where
  ncpu : ℕ
  kernelEnd : ℕ
  phystop : ℕ
  kernelEnd_pos : 0 < kernelEnd
  phystop_aligned : phystop % pgsize = 0
  phystop_lt : phystop + pgsize < 2 ^ 64
  kernelEnd_le : kernelEnd ≤ phystop

/-- The pages the allocator manages: page-aligned addresses in
`[PGROUNDUP(end), PHYSTOP)`. -/
def Layout.IsPage (L : Layout) (pa : ℕ) : Prop :=
  pa % pgsize = 0 ∧ pgroundup L.kernelEnd ≤ pa ∧ pa < L.phystop

/-- The allocator's part of memory: the free-list heads and the first word of
every page, which is `r->next` while the page is on a free list. -/
structure Kmems (ncpu : ℕ) where
  freelist : Fin ncpu → ℕ
  next : ℕ → ℕ

/-- The first word of a page filled with one repeated byte by `memset`. -/
def memsetWord (byte : ℕ) : ℕ := byte * 0x0101010101010101

/-- `memset(pa, byte, PGSIZE)`, seen through the first word of the page. -/
def Kmems.memset {ncpu : ℕ} (kmems : Kmems ncpu) (pa byte : ℕ) : Kmems ncpu :=
  { kmems with next := Function.update kmems.next pa (memsetWord byte) }

/-- The lock region of `kfree`: link the page in front of the list of the
sampled CPU. -/
def Kmems.push {ncpu : ℕ} (kmems : Kmems ncpu) (cpuId : Fin ncpu) (pa : ℕ) :
    Kmems ncpu where
  freelist := Function.update kmems.freelist cpuId pa
  next := Function.update kmems.next pa (kmems.freelist cpuId)

/-- The lock region of `kalloc`, the same for the own list and for a list that
is stolen from: unlink the first page, if there is one. -/
def Kmems.pop {ncpu : ℕ} (kmems : Kmems ncpu) (id : Fin ncpu) : ℕ × Kmems ncpu :=
  let r := kmems.freelist id
  if r = 0 then (0, kmems)
  else (r, { kmems with freelist := Function.update kmems.freelist id (kmems.next r) })

/-- The test at the start of `kfree` that ends in `panic("kfree")`. -/
def Layout.kfreePanics (L : Layout) (pa : ℕ) : Bool :=
  pa % pgsize ≠ 0 || pa < L.kernelEnd || L.phystop ≤ pa

/-- `kfree` run by one CPU without interruption, as `kinit` uses it; `none` is
the panic. -/
def kfree (L : Layout) (cpuId : Fin L.ncpu) (kmems : Kmems L.ncpu) (pa : ℕ) :
    Option (Kmems L.ncpu) :=
  if L.kfreePanics pa then none
  else some ((kmems.memset pa 1).push cpuId pa)

/-- The loop of `freerange` from page `p` on; the fuel bounds the number of
pages left. -/
def freerangeLoop (L : Layout) (cpuId : Fin L.ncpu) (paEnd : ℕ) :
    ℕ → ℕ → Kmems L.ncpu → Option (Kmems L.ncpu)
  | 0, _, kmems => some kmems
  | fuel + 1, p, kmems =>
      if p + pgsize ≤ paEnd then
        match kfree L cpuId kmems p with
        | none => none
        | some kmems' => freerangeLoop L cpuId paEnd fuel (p + pgsize) kmems'
      else some kmems

/-- `freerange(pa_start, pa_end)`. -/
def freerange (L : Layout) (cpuId : Fin L.ncpu) (paStart paEnd : ℕ)
    (kmems : Kmems L.ncpu) : Option (Kmems L.ncpu) :=
  freerangeLoop L cpuId paEnd ((paEnd - pgroundup paStart) / pgsize + 1)
    (pgroundup paStart) kmems

/-- `kinit` on the boot CPU.  The lists start empty; memory holds whatever it
held before. -/
def kinit (L : Layout) (bootCpu : Fin L.ncpu) (garbage : ℕ → ℕ) :
    Option (Kmems L.ncpu) :=
  freerange L bootCpu L.kernelEnd L.phystop ⟨fun _ => 0, garbage⟩

end OperateSystem.Kalloc
