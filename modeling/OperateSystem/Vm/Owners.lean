import OperateSystem.Vm.Growproc

/-!
# The owners of memory

The processes of the table and the free list share no page.  A call that changes one
process moves pages between that process and the free list, and leaves what the others
own alone.
-/

namespace OperateSystem.Vm

open OperateSystem.PointerTree

/-- Every page of user memory has all flags of `uvmalloc`, with the exception of `PTE_U`,
which one page may lack. -/
structure Flagged (m : Machine) (user sz : ℕ) : Prop where
  flags : ∀ vpn, vpn < pages sz → pteFlags (entry m.mem user vpn) ||| pteU = userPerm ||| pteV
  single : ∀ vpn vpn', vpn < pages sz → vpn' < pages sz → entry m.mem user vpn &&& pteU = 0 →
    entry m.mem user vpn' &&& pteU = 0 → vpn = vpn'

/-- Entry `i` of the process table: it has its kernel stack, and it is not in use or
live. -/
structure Sound (L : Layout) (m : Machine) (i : ℕ) (p : Proc) : Prop where
  kstack : p.kstack = L.kstack i
  kstackPa : p.kstackPa < 2 ^ 52
  kind : Idle p ∨ ∃ frame user kern, Live L m p frame user kern ∧ Flagged m user p.sz

/-- The processes and the free list share no page. -/
structure Owners (L : Layout) (s : Kernel) : Prop where
  free : Apart s.machine ∅
  nonnull : 0 ∉ s.machine.free
  sound : ∀ i, i < L.nproc → Sound L s.machine i (s.proc i)
  apart : ∀ i, i < L.nproc → ∀ page ∈ s.machine.free, page ∉ owned s.machine (s.proc i)
  ownsNonnull : ∀ i, i < L.nproc → 0 ∉ owned s.machine (s.proc i)
  disjoint : ∀ i j, i < L.nproc → j < L.nproc → i ≠ j →
    Disjoint (owned s.machine (s.proc i)) (owned s.machine (s.proc j))

/-- What a call does to the process in entry `i`: pages move between it and the free list,
and the other entries are left alone. -/
structure Turn (L : Layout) (s s' : Kernel) (i : ℕ) : Prop where
  slot : i < L.nproc
  others : ∀ j, j ≠ i → s'.proc j = s.proc j
  moves : Moves (owned s.machine (s.proc i)) (owned s'.machine (s'.proc i)) s.machine s'.machine
  sound : Sound L s'.machine i (s'.proc i)
  kstackPa : (s'.proc i).kstackPa = (s.proc i).kstackPa
  kernelPagetable : s'.kernelPagetable = s.kernelPagetable

section Owners

variable {L : Layout} {s s' : Kernel} {m m' : Machine} {p p' : Proc} {i : ℕ}

theorem Kernel.set_self : (s.set i p m).proc i = p := Function.update_self _ _ _

theorem Kernel.set_of_ne {j : ℕ} (h : j ≠ i) : (s.set i p m).proc j = s.proc j :=
  Function.update_of_ne h _ _

/-- Only the flags matter. -/
theorem Flagged.of_flags_eq {user user' sz : ℕ} (h : Flagged m user sz)
    (heq : ∀ vpn, vpn < pages sz →
      pteFlags (entry m'.mem user' vpn) = pteFlags (entry m.mem user vpn)) :
    Flagged m' user' sz := by
  constructor
  · intro vpn hvpn
    rw [heq vpn hvpn]
    exact h.flags vpn hvpn
  · intro vpn vpn' hvpn hvpn'
    rw [and_pteU, and_pteU (entry m'.mem user' vpn'), heq vpn hvpn, heq vpn' hvpn', ← and_pteU,
      ← and_pteU]
    exact h.single vpn vpn' hvpn hvpn'

/-- The flags that the mirror of a page of user memory gets. -/
theorem flags_without_user {pte : Word} (h : pteFlags pte ||| pteU = userPerm ||| pteV) :
    pteFlags pte &&& ~~~pteU = pteW ||| pteX ||| pteR ||| pteV := by
  have hboth : (pteFlags pte ||| pteU) &&& ~~~pteU = pteFlags pte &&& ~~~pteU := by
    ext k hk
    simp only [BitVec.getElem_and, BitVec.getElem_or, BitVec.getElem_not]
    cases (pteFlags pte)[k] <;> cases pteU[k] <;> rfl
  rw [← hboth, h]
  decide

theorem mirrorWord_of_flags {pte : Word} (h : pteFlags pte ||| pteU = userPerm ||| pteV) :
    mirrorWord pte = pa2pte (pte2pa pte) ||| (pteW ||| pteX ||| pteR ||| pteV) := by
  rw [mirrorWord, flags_without_user h, BitVec.or_assoc]
  congr 1

theorem Flagged.frame {user sz : ℕ} (h : Flagged m user sz)
    (hframe : ∀ page ∈ tables m.mem user, m'.mem page = m.mem page) : Flagged m' user sz :=
  h.of_flags_eq fun vpn _ => by rw [entry_frame hframe]

theorem Flagged.resize {user sz newsz : ℕ} (h : Flagged m user sz)
    (hresized : Resized user m m' sz newsz) : Flagged m' user newsz := by
  have hold : ∀ vpn, vpn < pages newsz → entry m'.mem user vpn &&& pteU = 0 →
      vpn < pages sz ∧ entry m.mem user vpn &&& pteU = 0 := by
    intro vpn hvpn hclear
    rcases hresized vpn hvpn with ⟨hlt, heq⟩ | hnew
    · rw [heq] at hclear
      exact ⟨hlt, hclear⟩
    · exact absurd hclear (user_of_flags hnew)
  constructor
  · intro vpn hvpn
    rcases hresized vpn hvpn with ⟨hlt, heq⟩ | hnew
    · rw [heq]
      exact h.flags vpn hlt
    · rw [hnew]
      decide
  · intro vpn vpn' hvpn hvpn' hclear hclear'
    obtain ⟨hlt, hold₁⟩ := hold vpn hvpn hclear
    obtain ⟨hlt', hold₂⟩ := hold vpn' hvpn' hclear'
    exact h.single vpn vpn' hlt hlt' hold₁ hold₂

theorem Sound.owned_lt (h : Sound L m i p) {page : ℕ} (hpage : page ∈ owned m p) :
    page < 2 ^ 52 := by
  rcases h.kind with hidle | ⟨frame, user, kern, hlive, -⟩
  · rw [hidle.owned_eq] at hpage
    exact absurd hpage (Set.notMem_empty page)
  · rw [hlive.owned_eq] at hpage
    exact hlive.page_lt hpage

/-- A process depends on what it owns only. -/
theorem Sound.frame (h : Sound L m i p) (hframe : ∀ page ∈ owned m p, m'.mem page = m.mem page) :
    Sound L m' i p ∧ owned m' p = owned m p := by
  rcases h.kind with hidle | ⟨frame, user, kern, hlive, hflags⟩
  · exact ⟨⟨h.kstack, h.kstackPa, Or.inl hidle⟩, by rw [hidle.owned_eq, hidle.owned_eq]⟩
  · have htables : ∀ page ∈ tables m.mem user ∪ tables m.mem kern, m'.mem page = m.mem page :=
      fun page hpage => hframe page (hlive.tables_subset hpage)
    refine ⟨⟨h.kstack, h.kstackPa, Or.inr ⟨frame, user, kern, hlive.stable htables, ?_⟩⟩,
      hlive.owned_frame htables⟩
    exact hflags.frame fun page hpage => htables page (Or.inl hpage)

/-- The free list is apart from what a process owns. -/
theorem Owners.apart_owned (h : Owners L s) (hi : i < L.nproc) :
    Apart s.machine (owned s.machine (s.proc i)) :=
  ⟨h.free.nodup, h.apart i hi, h.free.bounded⟩

theorem Owners.live (h : Owners L s) (hi : i < L.nproc) (huse : (s.proc i).state ≠ .unused) :
    ∃ frame user kern, Live L s.machine (s.proc i) frame user kern ∧
      Flagged s.machine user (s.proc i).sz := by
  rcases (h.sound i hi).kind with hidle | hlive
  · exact absurd hidle.state huse
  · exact hlive

theorem Owners.idle (h : Owners L s) (hi : i < L.nproc) (hunused : (s.proc i).state = .unused) :
    Idle (s.proc i) := by
  rcases (h.sound i hi).kind with hidle | ⟨frame, user, kern, hlive, -⟩
  · exact hidle
  · exact absurd hunused hlive.state

/-- One process is replaced, and its pages move to and from the free list. -/
theorem Turn.set (hi : i < L.nproc)
    (hmoves : Moves (owned s.machine (s.proc i)) (owned m' p') s.machine m')
    (hsound : Sound L m' i p') (hkstackPa : p'.kstackPa = (s.proc i).kstackPa) :
    Turn L s (s.set i p' m') i := by
  refine ⟨hi, fun j hj => Kernel.set_of_ne hj, ?_, ?_, ?_, rfl⟩
  · rw [Kernel.set_self]
    exact hmoves
  · rw [Kernel.set_self]
    exact hsound
  · rw [Kernel.set_self]
    exact hkstackPa

/-- What the other processes own stays out of the turn of process `i`. -/
theorem Owners.beside (h : Owners L s) (ht : Turn L s s' i) {j : ℕ} (hj : j < L.nproc)
    (hne : j ≠ i) : Sound L s'.machine j (s'.proc j) ∧
      owned s'.machine (s'.proc j) = owned s.machine (s.proc j) ∧
      Away (owned s'.machine (s'.proc j)) (owned s'.machine (s'.proc i)) s'.machine := by
  have haway : Away (owned s.machine (s.proc j)) (owned s.machine (s.proc i)) s.machine := by
    intro page hpage
    exact ⟨fun hmem => Set.disjoint_left.mp (h.disjoint j i hj ht.slot hne) hpage hmem,
      fun hfree => h.apart j hj page hfree hpage⟩
  obtain ⟨haway', hsame⟩ := ht.moves.away haway
  obtain ⟨hsound', howned⟩ := (h.sound j hj).frame hsame
  rw [ht.others j hne, howned]
  exact ⟨hsound', rfl, haway'⟩

/-- A turn of one process keeps the pages of the processes apart. -/
theorem Owners.turn (h : Owners L s) (ht : Turn L s s' i) : Owners L s' := by
  have hapart := ht.moves.keeps_apart (h.apart_owned ht.slot)
    fun page hpage => (h.sound i ht.slot).owned_lt hpage
  obtain ⟨hnull, hfree⟩ := ht.moves.absent (h.ownsNonnull i ht.slot) h.nonnull
  refine ⟨hapart.mono (Set.empty_subset _), hfree, ?_, ?_, ?_, ?_⟩
  · intro j hj
    by_cases heq : j = i
    · subst heq
      exact ht.sound
    · exact (h.beside ht hj heq).1
  · intro j hj page hfree
    by_cases heq : j = i
    · subst heq
      exact hapart.apart page hfree
    · exact fun hpage => ((h.beside ht hj heq).2.2 page hpage).2 hfree
  · intro j hj
    by_cases heq : j = i
    · subst heq
      exact hnull
    · rw [(h.beside ht hj heq).2.1]
      exact h.ownsNonnull j hj
  · intro j k hj hk hne
    rw [Set.disjoint_left]
    intro page hpage hpage'
    by_cases hji : j = i
    · subst hji
      exact ((h.beside ht hk (Ne.symm hne)).2.2 page hpage').1 hpage
    · by_cases hki : k = i
      · subst hki
        exact ((h.beside ht hj hji).2.2 page hpage).1 hpage'
      · rw [(h.beside ht hj hji).2.1] at hpage
        rw [(h.beside ht hk hki).2.1] at hpage'
        exact Set.disjoint_left.mp (h.disjoint j k hj hk hne) hpage hpage'

end Owners

end OperateSystem.Vm
