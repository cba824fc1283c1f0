import Mathlib.Data.Nat.Bitwise
import Mathlib.Tactic.Ring

/-!
# Pages, page-table entries and the address space

The constants and macros of `riscv.h` for Sv39 page tables, and the fixed points
of the address space.  A physical page is named by its page number, so a
pointer to a page is a number and `PA2PTE`, `PTE2PA` work on page numbers; a
virtual address is a number of bytes.
-/

namespace OperateSystem.Vm

/-- A 64-bit word of memory, in particular a `pte_t`. -/
abbrev Word := BitVec 64

def pgSize : ℕ := 4096

/-- One beyond the highest possible virtual address. -/
def maxVa : ℕ := 2 ^ 38

/-- A value as `uint64`. -/
def u64 (x : Int) : ℕ := (x % 2 ^ 64).toNat

/-- A value as `uint`. -/
def u32 (x : Int) : ℕ := (x % 2 ^ 32).toNat

/-- `PGROUNDUP(sz)`. -/
def pgRoundUp (sz : ℕ) : ℕ := u64 (sz + pgSize - 1) / pgSize * pgSize

/-- `PGROUNDDOWN(a)`. -/
def pgRoundDown (a : ℕ) : ℕ := a / pgSize * pgSize

/-- `PX(level, va)`. -/
def px (level va : ℕ) : Fin 512 := ⟨va / 2 ^ (12 + 9 * level) % 512, Nat.mod_lt _ (by decide)⟩

def pteV : Word := 1
def pteR : Word := 2
def pteW : Word := 4
def pteX : Word := 8
def pteU : Word := 16

/-- `PA2PTE` of the address of a page. -/
def pa2pte (page : ℕ) : Word := BitVec.ofNat 64 page <<< 10

/-- The page that `PTE2PA(pte)` is the address of. -/
def pte2pa (pte : Word) : ℕ := ((pte >>> 10) <<< 12).toNat / pgSize

/-- `PTE_FLAGS(pte)`. -/
def pteFlags (pte : Word) : Word := pte &&& 0x3FF

/-- `pte & PTE_V`. -/
def Valid (pte : Word) : Prop := pte &&& pteV ≠ 0

/-- `pte & (PTE_R|PTE_W|PTE_X)`. -/
def Leaf (pte : Word) : Prop := pte &&& (pteR ||| pteW ||| pteX) ≠ 0

instance (pte : Word) : Decidable (Valid pte) := inferInstanceAs (Decidable (_ ≠ _))

instance (pte : Word) : Decidable (Leaf pte) := inferInstanceAs (Decidable (_ ≠ _))

/-- The table page a word of an upper table points to. -/
def next (pte : Word) : Option ℕ := if Valid pte then some (pte2pa pte) else none

/-- The virtual pages of the trampoline, at the highest virtual address, and of
the trapframe just below it. -/
def trampoline : ℕ := 2 ^ 26 - 1
def trapframe : ℕ := 2 ^ 26 - 2

/-- What `memlayout.h`, `param.h` and the linker fix, as page numbers: the
devices, the kernel's text and data, the page that holds the trampoline code and
the virtual page of each kernel stack. -/
structure Layout where
  clint : ℕ
  plic : ℕ
  uart0 : ℕ
  virtio0 : ℕ
  kernbase : ℕ
  etext : ℕ
  phystop : ℕ
  trampolinePa : ℕ
  kstack : ℕ → ℕ
  nproc : ℕ
  maxArg : ℕ
  clint_le : clint + 16 ≤ plic
  plic_le : plic + 1024 ≤ uart0
  uart0_lt : uart0 < virtio0
  virtio0_lt : virtio0 < kernbase
  kernbase_le : kernbase ≤ 2 ^ 19
  kernbase_lt : kernbase < etext
  etext_lt : etext < phystop
  phystop_lt : phystop < 2 ^ 20
  trampolinePa_lt : trampolinePa < phystop
  kstack_ge : ∀ i, i < nproc → phystop ≤ kstack i
  kstack_lt : ∀ i, i < nproc → kstack i < trapframe
  kstack_inj : ∀ i j, i < nproc → j < nproc → kstack i = kstack j → i = j

/-- The machine that the kernel runs on: 128 MB of memory, 64 processes. -/
def virt : Layout where
  clint := 0x2000
  plic := 0xC000
  uart0 := 0x10000
  virtio0 := 0x10001
  kernbase := 0x80000
  etext := 0x80008
  phystop := 0x88000
  trampolinePa := 0x80007
  kstack := fun i => trampoline - 2 * (i + 1)
  nproc := 64
  maxArg := 32
  clint_le := by decide
  plic_le := by decide
  uart0_lt := by decide
  virtio0_lt := by decide
  kernbase_le := by decide
  kernbase_lt := by decide
  etext_lt := by decide
  phystop_lt := by decide
  trampolinePa_lt := by decide
  kstack_ge := by
    intro i hi
    simp only [trampoline]
    omega
  kstack_lt := by
    intro i hi
    simp only [trampoline, trapframe]
    omega
  kstack_inj := by
    intro i j hi hj heq
    simp only [trampoline] at heq
    omega

section Entries

variable {page : ℕ} (hpage : page < 2 ^ 52)

include hpage

theorem toNat_pa2pte : (pa2pte page).toNat = 2 ^ 10 * page := by
  rw [pa2pte, BitVec.toNat_shiftLeft, BitVec.toNat_ofNat, Nat.mod_eq_of_lt (by omega),
    Nat.shiftLeft_eq, Nat.mod_eq_of_lt (by omega), Nat.mul_comm]

/-- The address leaves the low ten bits free. -/
theorem pa2pte_and {mask : Word} (hmask : mask.toNat < 2 ^ 10) : pa2pte page &&& mask = 0 := by
  apply BitVec.eq_of_toNat_eq
  rw [BitVec.toNat_and, toNat_pa2pte hpage]
  apply Nat.eq_of_testBit_eq
  intro i
  rw [Nat.testBit_and, Nat.testBit_two_pow_mul]
  by_cases hi : 10 ≤ i
  · rw [Nat.testBit_lt_two_pow (lt_of_lt_of_le hmask (Nat.pow_le_pow_right (by decide) hi))]
    simp
  · simp [hi]

/-- Low bits of an entry are the bits of its flags. -/
theorem entry_and {mask : Word} (hmask : mask.toNat < 2 ^ 10) (flags : Word) :
    (pa2pte page ||| flags) &&& mask = flags &&& mask := by
  rw [BitVec.and_or_distrib_right, pa2pte_and hpage hmask]
  exact BitVec.zero_or

theorem pte2pa_entry {flags : Word} (hflags : flags.toNat < 2 ^ 10) :
    pte2pa (pa2pte page ||| flags) = page := by
  have hor : (pa2pte page ||| flags).toNat = 2 ^ 10 * page + flags.toNat := by
    rw [BitVec.toNat_or, toNat_pa2pte hpage, Nat.two_pow_add_eq_or_of_lt hflags]
  rw [pte2pa, BitVec.toNat_shiftLeft, BitVec.toNat_ushiftRight, hor, Nat.shiftLeft_eq,
    Nat.shiftRight_eq_div_pow, pgSize]
  omega

theorem pteFlags_entry {flags : Word} (hflags : pteFlags flags = flags) :
    pteFlags (pa2pte page ||| flags) = flags := by
  rw [pteFlags, entry_and hpage (by decide), ← pteFlags, hflags]

/-- The entry of a table page leads to the page. -/
theorem next_table : next (pa2pte page ||| pteV) = some page := by
  have hvalid : Valid (pa2pte page ||| pteV) := by
    rw [Valid, entry_and hpage (by decide)]
    decide
  rw [next, if_pos hvalid, pte2pa_entry hpage (by decide)]

theorem not_leaf_table : ¬ Leaf (pa2pte page ||| pteV) := by
  rw [Leaf, entry_and hpage (by decide)]
  decide

end Entries

theorem pte2pa_lt (pte : Word) : pte2pa pte < 2 ^ 52 := by
  have hlt := ((pte >>> 10) <<< 12).isLt
  rw [pte2pa, pgSize]
  omega

theorem not_valid_zero : ¬ Valid 0 := by decide

theorem next_zero : next 0 = none := by
  rw [next, if_neg not_valid_zero]

theorem next_eq_none {pte : Word} : next pte = none ↔ ¬ Valid pte := by
  rw [next]
  split <;> simp_all

theorem next_of_valid {pte : Word} (h : Valid pte) : next pte = some (pte2pa pte) := if_pos h

theorem pteFlags_toNat (pte : Word) : (pteFlags pte).toNat < 2 ^ 10 := by
  rw [pteFlags, BitVec.toNat_and]
  exact lt_of_le_of_lt Nat.and_le_right (by decide)

theorem pteFlags_idem (pte : Word) : pteFlags (pteFlags pte) = pteFlags pte := by
  simp [pteFlags, BitVec.and_assoc]

section Rounding

theorem u64_of_lt {x : ℕ} (h : x < 2 ^ 64) : u64 x = x := by
  rw [u64]
  omega

theorem pgRoundUp_eq {sz : ℕ} (h : sz < 2 ^ 63) : pgRoundUp sz = (sz + 4095) / 4096 * 4096 := by
  have hsum : ((sz : Int) + (pgSize : ℕ) - 1) = ((sz + 4095 : ℕ) : Int) := by
    simp only [pgSize]
    push_cast
    omega
  rw [pgRoundUp, hsum, u64_of_lt (by omega), pgSize]

end Rounding

section Indices

/-- The virtual page of an address. -/
theorem px_page (level vpn ofs : ℕ) (hofs : ofs < 4096) :
    px level (4096 * vpn + ofs) = ⟨vpn / 512 ^ level % 512, Nat.mod_lt _ (by decide)⟩ := by
  apply Fin.ext
  have hpow : 2 ^ (12 + 9 * level) = 4096 * 512 ^ level := by
    rw [Nat.pow_add, Nat.pow_mul]
  have hdiv : (4096 * vpn + ofs) / (4096 * 512 ^ level) = vpn / 512 ^ level := by
    rw [← Nat.div_div_eq_div_mul]
    congr 1
    omega
  simp only [px, hpow, hdiv]

end Indices

end OperateSystem.Vm
