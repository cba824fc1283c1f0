import OperateSystem.Vm.ExecFailure
import OperateSystem.Vm.Programs

/-!
# The kernel refines its programs

Every step of the kernel and of its users is an `Effect` on the programs: a run of the
kernel, with its page tables, its free list and its shared memory, is a run of programs that
have nothing in common.  What a process reads is decided by what it has done itself.
-/

namespace OperateSystem.Vm

open OperateSystem.PointerTree OperateSystem.Translation OperateSystem.Traces

/-- A store of the user through a page table: the page has to be mapped, writable and a page
of the user. -/
def storeByte (m : Machine) (root va : ℕ) (byte : BitVec 8) : Option Machine :=
  if va < maxVa ∧ Open m root (va / pgSize) ∧ entry m.mem root (va / pgSize) &&& pteW ≠ 0 then
    some (m.write (pte2pa (entry m.mem root (va / pgSize))) (va % pgSize) [byte])
  else none

/-- The registers of the user are saved to the trapframe. -/
def saveRegisters (m : Machine) (frame : ℕ) (registers : Fin 512 → Word) : Machine :=
  m.fill frame fun k => if k.val < 36 then registers k else m.mem frame k

/-- A step of the kernel, or of a user: a call in the life of a process, a copy that the
kernel makes to a user for another call, a store, or the way from the user to the kernel.  The
calls that leave a process half changed are no steps: those of `exec` and `growproc` that have
the pages for the user memory and fail at its mirror. -/
inductive Activity (L : Layout) : Kernel → Event → Kernel → Prop
  | userinit {s s' : Kernel} (hcall : userinit L s = .ok (true, s')) : Activity L s .userinit s'
  | fork {s s' : Kernel} {i : ℕ} {result : Option ℕ} (hi : i < L.nproc)
      (huse : (s.proc i).state ≠ .unused) (hcall : fork L s i = .ok (result, s')) :
      Activity L s (.fork i) s'
  | exec {s : Kernel} {i argc : ℕ} {ip : Inode} {path : List Char}
      {argv : List (List (BitVec 8))} {p : Proc} {m : Machine} (hi : i < L.nproc)
      (huse : (s.proc i).state ≠ .unused)
      (hcall : exec L s.machine (s.proc i) (some ip) path argv = .ok (some argc, p, m)) :
      Activity L s (.exec i (some ip)) (s.set i p m)
  | execFailed {s : Kernel} {i kern : ℕ} {ip : Option Inode} {path : List Char}
      {argv : List (List (BitVec 8))} {p : Proc} {m : Machine} (hi : i < L.nproc)
      (huse : (s.proc i).state ≠ .unused) (hkern : (s.proc i).kPagetable = some kern)
      (hroom : ¬ Stranded L s.machine kern ip argv)
      (hcall : exec L s.machine (s.proc i) ip path argv = .ok (none, p, m)) :
      Activity L s (.exec i ip) (s.set i p m)
  | growproc {s : Kernel} {i : ℕ} {n : Int} {p : Proc} {m : Machine} (hi : i < L.nproc)
      (huse : (s.proc i).state ≠ .unused) (hlo : -2 ^ 31 ≤ n) (hhi : n < 2 ^ 31)
      (hcall : growproc L s.machine (s.proc i) n = .ok (true, p, m)) :
      Activity L s (.growproc i n) (s.set i p m)
  | growprocFailed {s : Kernel} {i user : ℕ} {n : Int} {p : Proc} {m : Machine} (hi : i < L.nproc)
      (huse : (s.proc i).state ≠ .unused) (hhi : n < 2 ^ 31)
      (huser : (s.proc i).pagetable = some user)
      (hshort : s.machine.free.length
        < userNeed s.machine user (s.proc i).sz ((s.proc i).sz + n.toNat))
      (hcall : growproc L s.machine (s.proc i) n = .ok (false, p, m)) :
      Activity L s (.growproc i n) (s.set i p m)
  | exit {s s' : Kernel} {i : ℕ} {status : BitVec 32} (hi : i < L.nproc)
      (huse : (s.proc i).state ≠ .unused) (hcall : exit s i status = .ok s') :
      Activity L s (.exit i) s'
  | wait {s s' : Kernel} {i addr : ℕ} {result : Waited} (hi : i < L.nproc)
      (huse : (s.proc i).state ≠ .unused) (hcall : wait L s i addr = .ok (result, s')) :
      Activity L s (.wait i addr) s'
  | copyout {s : Kernel} {i va user : ℕ} {bytes : List (BitVec 8)} {ok : Bool} {m : Machine}
      (hi : i < L.nproc) (huse : (s.proc i).state ≠ .unused)
      (huser : (s.proc i).pagetable = some user)
      (hcall : copyout s.machine user va bytes = .ok (ok, m)) :
      Activity L s (.copyout i va bytes) { s with machine := m }
  | store {s : Kernel} {i va user : ℕ} {byte : BitVec 8} {m : Machine} (hi : i < L.nproc)
      (huse : (s.proc i).state ≠ .unused) (huser : (s.proc i).pagetable = some user)
      (hstore : storeByte s.machine user va byte = some m) :
      Activity L s (.store i va byte) { s with machine := m }
  | trap {s : Kernel} {i frame : ℕ} {registers : Fin 512 → Word} (hi : i < L.nproc)
      (huse : (s.proc i).state ≠ .unused) (hframe : (s.proc i).trapframe = some frame) :
      Activity L s (.trap i registers)
        { s with machine := saveRegisters s.machine frame registers }

section View

variable {L : Layout} {m m' : Machine} {p : Proc} {frame user kern i : ℕ} {s s' : Kernel}

/-- The user may use pages of user memory only. -/
theorem Live.open_below (h : Live L m p frame user kern) {vpn : ℕ} (hvpn : vpn < 2 ^ 26)
    (hopen : Open m user vpn) : vpn < pages p.sz := by
  by_contra hout
  apply hopen.2
  rw [h.userRest vpn (by omega) hvpn]
  exact userMap_not_user h.frame_lt vpn

/-- The program of a live process. -/
theorem Live.programOf_eq (h : Live L m p frame user kern) :
    programOf m p = some ⟨p.sz, userMemory m user, Program.words (m.mem frame)⟩ := by
  rw [programOf, if_neg h.state, h.pagetable, h.trapframe]
  rfl

theorem Idle.programOf_eq (h : Idle p) : programOf m p = none := if_pos h.state

theorem and_of_flags {pte pte' : Word} (h : pteFlags pte = pteFlags pte') {mask : Word}
    (hmask : mask = 0x3FF &&& mask) : pte &&& mask = pte' &&& mask := by
  rw [hmask, ← BitVec.and_assoc, ← BitVec.and_assoc]
  exact congrArg (· &&& mask) h

theorem open_of_flags {user' vpn : ℕ}
    (h : pteFlags (entry m'.mem user' vpn) = pteFlags (entry m.mem user vpn)) :
    Open m' user' vpn ↔ Open m user vpn := by
  rw [Open, Open, Valid, Valid, and_of_flags h (show pteV = 0x3FF &&& pteV by decide),
    and_of_flags h (show pteU = 0x3FF &&& pteU by decide)]

/-- What the user sees of a page of user memory is in its word and its contents. -/
theorem userMemory_congr {user' va : ℕ} (hflags : pteFlags (entry m'.mem user' (va / pgSize))
      = pteFlags (entry m.mem user (va / pgSize)))
    (hcontent : m'.mem (pte2pa (entry m'.mem user' (va / pgSize)))
      = m.mem (pte2pa (entry m.mem user (va / pgSize)))) :
    userMemory m' user' va = userMemory m user va := by
  have hopen := open_of_flags hflags
  simp only [userMemory, hopen, mappedByte, hcontent]

/-- Two live processes of one size that have the same flags and contents page by page have the
same user memory. -/
theorem Live.userMemory_eq {p' : Proc} {frame' user' kern' : ℕ}
    (h : Live L m p frame user kern) (h' : Live L m' p' frame' user' kern') (hsz : p'.sz = p.sz)
    (hpages : ∀ vpn, vpn < pages p.sz →
      pteFlags (entry m'.mem user' vpn) = pteFlags (entry m.mem user vpn) ∧
      m'.mem (pte2pa (entry m'.mem user' vpn)) = m.mem (pte2pa (entry m.mem user vpn))) :
    userMemory m' user' = userMemory m user := by
  funext va
  by_cases hva : va / pgSize < pages p.sz
  · obtain ⟨hflags, hcontent⟩ := hpages _ hva
    exact userMemory_congr hflags hcontent
  · rw [userMemory, userMemory, if_neg, if_neg]
    · rintro ⟨hsmall, hopen⟩
      rw [maxVa] at hsmall
      rw [pgSize] at hva hopen
      exact hva (h.open_below (by omega) hopen)
    · rintro ⟨hsmall, hopen⟩
      rw [maxVa] at hsmall
      rw [pgSize] at hva hopen
      rw [← hsz] at hva
      exact hva (h'.open_below (by omega) hopen)

/-- A program depends on the pages of its process only. -/
theorem Sound.programOf_frame (h : Sound L m i p)
    (hsame : ∀ page ∈ owned m p, m'.mem page = m.mem page) : programOf m' p = programOf m p := by
  rcases h.kind with hidle | ⟨frame, user, kern, hlive, -⟩
  · rw [hidle.programOf_eq, hidle.programOf_eq]
  · have htables : ∀ page ∈ tables m.mem user ∪ tables m.mem kern, m'.mem page = m.mem page :=
      fun page hpage => hsame page (hlive.tables_subset hpage)
    rw [hlive.owned_eq] at hsame
    have hlive' := hlive.stable htables
    rw [hlive'.programOf_eq, hlive.programOf_eq, hsame frame (Or.inl rfl),
      hlive.userMemory_eq hlive' rfl]
    intro vpn hvpn
    rw [entry_frame fun page hpage => htables page (Or.inl hpage)]
    exact ⟨rfl, hsame _ (Or.inr (Or.inl (Or.inr ⟨vpn, hvpn, rfl⟩)))⟩

theorem programs_of_lt (hi : i < L.nproc) : programs L s i = programOf s.machine (s.proc i) :=
  if_pos hi

/-- A turn of one process changes its program and no other. -/
theorem Owners.programs_turn (h : Owners L s) (ht : Turn L s s' i) :
    programs L s' = Function.update (programs L s) i (programOf s'.machine (s'.proc i)) := by
  funext j
  by_cases heq : j = i
  · subst heq
    rw [Function.update_self, programs_of_lt ht.slot]
  · rw [Function.update_of_ne heq]
    by_cases hj : j < L.nproc
    · have haway : Away (owned s.machine (s.proc j)) (owned s.machine (s.proc i)) s.machine := by
        intro page hpage
        exact ⟨fun hmem => Set.disjoint_left.mp (h.disjoint j i hj ht.slot heq) hpage hmem,
          fun hfree => h.apart j hj page hfree hpage⟩
      rw [programs_of_lt hj, programs_of_lt hj, ht.others j heq]
      exact (h.sound j hj).programOf_frame (ht.moves.away haway).2
    · rw [programs, programs, if_neg hj, if_neg hj]

/-- A call that moves no pages changes no program. -/
theorem AllKeep.programs_eq (h : AllKeep s s') : programs L s' = programs L s := by
  funext j
  have hkeep := h.proc j
  rw [programs, programs, programOf, programOf, h.machine, hkeep.sz, hkeep.pagetable,
    hkeep.trapframe]
  simp only [hkeep.unused]

end View

section Deliver

variable {L : Layout} {m m' : Machine} {p : Proc} {frame user kern : ℕ}

/-- Bytes that are delivered up to an address that the user may not use. -/
theorem Program.deliver_eq (prog : Program) {va n : ℕ} {src : List (BitVec 8)}
    (hle : n ≤ src.length) (hopen : ∀ k, k < n → (prog.memory (va + k)).isSome)
    (hstop : n < src.length → prog.memory (va + n) = none) :
    prog.deliver va src = { prog with
      memory := fun a => if va ≤ a ∧ a < va + n then some (src.getD (a - va) 0)
        else prog.memory a } := by
  induction src generalizing prog va n with
  | nil =>
      obtain rfl : n = 0 := Nat.le_zero.mp hle
      rw [Program.deliver]
      ext a byte
      · rfl
      · dsimp only
        rw [if_neg (by omega)]
      · rfl
  | cons byte src ih =>
      rw [List.length_cons] at hle hstop
      cases n with
      | zero =>
          have hclosed := hstop (Nat.zero_lt_succ _)
          rw [Nat.add_zero] at hclosed
          rw [Program.deliver, hclosed, Option.isSome_none, if_neg (by decide)]
          ext a byte
          · rfl
          · dsimp only
            rw [if_neg (by omega)]
          · rfl
      | succ n =>
          have hfirst := hopen 0 (Nat.zero_lt_succ n)
          rw [Nat.add_zero] at hfirst
          rw [Program.deliver, if_pos hfirst, ih (prog.put va byte) (n := n) (by omega)]
          · ext a other
            · rfl
            · simp only [Program.put]
              by_cases heq : a = va
              · subst heq
                rw [if_neg (by omega), if_pos (by omega), Function.update_self, Nat.sub_self]
                rfl
              · rw [Function.update_of_ne heq]
                by_cases hin : va + 1 ≤ a ∧ a < va + 1 + n
                · rw [if_pos hin, if_pos (by omega),
                    show a - va = a - (va + 1) + 1 by omega, List.getD_cons_succ]
                · rw [if_neg hin, if_neg (by omega)]
            · rfl
          · intro k hk
            have hnext := hopen (k + 1) (by omega)
            rw [Program.put]
            dsimp only
            rw [Function.update_of_ne (by omega), Nat.add_assoc, Nat.add_comm 1 k]
            exact hnext
          · intro hlt
            have hend := hstop (by omega)
            rw [Program.put]
            dsimp only
            rw [Function.update_of_ne (by omega), Nat.add_assoc, Nat.add_comm 1 n]
            exact hend

/-- The pages of user memory are different pages. -/
theorem Live.distinctPages (h : Live L m p frame user kern) : DistinctPages m user :=
  fun vpn vpn' hvpn hvpn' hopen hopen' heq =>
    h.space.inj vpn (h.open_below hvpn hopen) vpn' (h.open_below hvpn' hopen') heq

theorem isSome_userMemory {va : ℕ} :
    (userMemory m user va).isSome ↔ va < maxVa ∧ Open m user (va / pgSize) := by
  rw [userMemory]
  split
  · exact iff_of_true rfl ‹_›
  · exact iff_of_false (by simp) ‹_›

/-- Only the user memory has changed. -/
theorem Delivered.programOf_eq {va n : ℕ} {src : List (BitVec 8)}
    (h : Delivered m m' user va src n) (hlive : Live L m p frame user kern)
    (hlive' : Live L m' p frame user kern) (hframe : m'.mem frame = m.mem frame) {prog : Program}
    (hprog : programOf m p = some prog) : programOf m' p = some (prog.deliver va src) := by
  rw [hlive.programOf_eq] at hprog
  cases hprog
  have hrange : UserRange m user va n := h.range
  have hlength : (src.take n).length = n := by
    rw [List.length_take, Nat.min_eq_left h.le]
  rw [hlive'.programOf_eq, hframe, Program.deliver_eq (n := n) _ h.le]
  · congr 2
    funext a
    have hopen : Open m' user (a / pgSize) ↔ Open m user (a / pgSize) := open_frame h.tables _
    dsimp only
    by_cases huse : a < maxVa ∧ Open m user (a / pgSize)
    · rw [userMemory, if_pos ⟨huse.1, hopen.mpr huse.2⟩, mappedByte_eq, cellAt_frame h.tables,
        h.bytes]
      by_cases hin : va ≤ a ∧ a < va + n
      · rw [if_pos hin]
        obtain ⟨k, rfl⟩ := Nat.exists_eq_add_of_le hin.1
        have hread : readAt (cellAt m user) (writeAt (cellAt m user) m.bytes va (src.take n)) va
            (src.take n).length = src.take n :=
          readAt_writeAt fun i j hi hj heq =>
            hlive.distinctPages.cellAt_inj hrange (by omega) (by omega) heq
        have hk := congrArg (fun bytes => bytes[k]?) hread
        simp only [readAt, List.getElem?_map] at hk
        rw [List.getElem?_range' (by omega), Nat.one_mul, Option.map_some,
          List.getElem?_take_of_lt (by omega)] at hk
        rw [hk, Nat.add_sub_cancel_left, List.getElem?_eq_getElem (by have := h.le; omega),
          List.getD_eq_getElem _ _ (by have := h.le; omega)]
      · rw [if_neg hin, userMemory, if_pos huse, mappedByte_eq, writeAt_of_ne]
        intro i hi heq
        rw [hlength] at hi
        obtain ⟨hsmall, hopen'⟩ := hrange (va + i) (by omega) (by omega)
        simp only [cellAt, Prod.mk.injEq, Fin.mk.injEq] at heq
        have hsmall' := huse.1
        have hopen'' := huse.2
        rw [maxVa] at hsmall hsmall'
        rw [pgSize] at heq hopen' hopen''
        have hpage := hlive.distinctPages _ _ (by omega) (by omega) hopen' hopen'' heq.1
        omega
    · rw [userMemory, if_neg (fun hboth => huse ⟨hboth.1, hopen.mp hboth.2⟩), if_neg, userMemory,
        if_neg huse]
      rintro ⟨hlo, hhi⟩
      exact huse (hrange a hlo hhi)
  · intro k hk
    exact isSome_userMemory.mpr (hrange (va + k) (by omega) (by omega))
  · intro hlt
    have hstop := h.stop hlt
    change userMemory m user (va + n) = none
    rw [userMemory, if_neg]
    intro huse
    apply hstop
    intro a hlo hhi
    by_cases heq : a = va + n
    · rw [heq]
      exact huse
    · exact hrange a hlo (by omega)

/-- A `copyout` stores what there is room for. -/
theorem Live.copyout_deliver (h : Live L m p frame user kern) (hnull : 0 ∉ owned m p) {va : ℕ}
    {src : List (BitVec 8)} {ok : Bool} (hcopy : Vm.copyout m user va src = .ok (ok, m'))
    (hlive' : Live L m' p frame user kern) (hframe : m'.mem frame = m.mem frame) {prog : Program}
    (hprog : programOf m p = some prog) : programOf m' p = some (prog.deliver va src) := by
  obtain ⟨n, m₁, hloop, hdelivered⟩ :=
    @copyoutLoop_spec m user (h.userPages hnull) _ va src (le_refl _)
  rw [Vm.copyout, hloop] at hcopy
  cases hcopy
  exact hdelivered.programOf_eq h hlive' hframe hprog

end Deliver

section Calls

variable {L : Layout} {s s' : Kernel} {i : ℕ} {p : Proc} {m : Machine}

/-- The program of a process in use. -/
theorem Owners.program (h : Owners L s) (hi : i < L.nproc) (huse : (s.proc i).state ≠ .unused) :
    ∃ prog, programs L s i = some prog ∧ programOf s.machine (s.proc i) = some prog ∧
      prog.size = (s.proc i).sz := by
  obtain ⟨frame, user, kern, hlive, -⟩ := h.live hi huse
  rw [programs_of_lt hi]
  exact ⟨_, hlive.programOf_eq, hlive.programOf_eq, rfl⟩

theorem Owners.programs_growproc (h : Owners L s) (hi : i < L.nproc)
    (huse : (s.proc i).state ≠ .unused) {n : Int} (hlo : -2 ^ 31 ≤ n) (hhi : n < 2 ^ 31)
    (hcall : Vm.growproc L s.machine (s.proc i) n = .ok (true, p, m)) :
    Effect (programs L s) (.growproc i n) (programs L (s.set i p m)) := by
  obtain ⟨frame, user, kern, hlive, -⟩ := h.live hi huse
  obtain ⟨rfl, hlive', hcarried, hframe⟩ :=
    hlive.growproc_carried (h.apart_owned hi) hlo hhi hcall
  have hprog := hlive.programOf_eq
  rw [h.programs_turn (h.growproc hi huse hlo hhi hcall), Kernel.set_self]
  change Effect _ _ (Function.update _ i (programOf m _))
  have hpages := hlive'.pages_le
  have hbound := L.plic_lt
  change pages (resized (s.proc i).sz n) ≤ L.plic at hpages
  have hresize : programOf m { s.proc i with sz := resized (s.proc i).sz n }
      = some (Program.resize ⟨(s.proc i).sz, userMemory s.machine user,
          Program.words (s.machine.mem frame)⟩ (resized (s.proc i).sz n)) := by
    rw [hlive'.programOf_eq, hframe, Program.resize]
    congr 2
    funext va
    by_cases hnew : va / pgSize < pages (resized (s.proc i).sz n)
    · rw [if_pos hnew]
      rcases hcarried _ hnew with ⟨hold, hentry, hcontent⟩ | ⟨hold, hflags, hzero⟩
      · rw [if_pos hold]
        apply userMemory_congr
        · rw [hentry]
        · rw [hentry, hcontent]
      · rw [if_neg (show ¬ va / pgSize < pages (s.proc i).sz by omega), userMemory, if_pos,
          mappedByte, hzero, byteAt_zero]
        refine ⟨?_, hlive'.space.mapped _ hnew, user_of_flags hflags⟩
        rw [pgSize] at hnew
        rw [maxVa]
        omega
    · rw [if_neg hnew, userMemory, if_neg]
      rintro ⟨hsmall, hopen⟩
      rw [maxVa] at hsmall
      rw [pgSize] at hnew hopen
      exact hnew (hlive'.open_below (by omega) hopen)
  rw [hresize]
  exact Effect.growproc ((programs_of_lt hi).trans hprog)

theorem Owners.programs_fork (h : Owners L s) (hi : i < L.nproc)
    (huse : (s.proc i).state ≠ .unused) {result : Option ℕ}
    (hcall : Vm.fork L s i = .ok (result, s')) :
    Effect (programs L s) (.fork i) (programs L s') := by
  obtain ⟨frame, user, kern, hlive, hflags⟩ := h.live hi huse
  cases result with
  | none =>
      have hsame : programs L s' = programs L s := by
        rcases fork_spec h.vacancies hlive (h.apart_owned hi) with ⟨-, hnone⟩ | ⟨j, -, hj, hidle,
          ⟨-, p, m', hnone, hp, hkstack, hkstackPa, hmoves⟩ | ⟨-, e, herror⟩ |
          ⟨-, np, m', hsome, hforked⟩⟩
        · rw [hnone] at hcall
          cases hcall
          rfl
        · rw [hnone] at hcall
          cases hcall
          have ht : Turn L s (s.enter j p m') j := by
            refine Turn.enter (Turn.set hj ?_ ⟨hkstack, ?_, Or.inl hp⟩ hkstackPa)
            · rw [hidle.owned_eq, hp.owned_eq]
              exact hmoves
            · rw [hkstackPa]
              exact (h.sound j hj).kstackPa
          rw [h.programs_turn ht, Kernel.enter_self, hp.programOf_eq, ← hidle.programOf_eq,
            ← programs_of_lt hj, Function.update_eq_self]
        · rw [herror] at hcall
          cases hcall
        · rw [hsome] at hcall
          cases hcall
      rw [hsame]
      exact Effect.forkFailed
  | some pid =>
      obtain ⟨j, np, m', frame', rfl, hj, hidle, hforked, hstate, hframe', hregisters⟩ :=
        fork_child h.vacancies hlive (h.apart_owned hi) hcall
      obtain ⟨frame'', user', kern', hlive', hcopy⟩ := hforked.live
      obtain rfl : frame'' = frame' := Option.some.inj (hlive'.trapframe.symm.trans hframe')
      have ht : Turn L s (s.enter j np m') j := by
        refine Turn.enter (Turn.set hj ?_ ⟨hforked.kstack, ?_,
          Or.inr ⟨frame'', user', kern', hlive', ?_⟩⟩ hforked.kstackPa)
        · rw [hidle.owned_eq]
          exact hforked.moves
        · rw [hforked.kstackPa]
          exact (h.sound j hj).kstackPa
        · rw [← hforked.size] at hflags
          exact hflags.of_flags_eq fun vpn hvpn => (hcopy vpn hvpn).1
      have hchild : programOf m' np = some (Program.forked
          ⟨(s.proc i).sz, userMemory s.machine user, Program.words (s.machine.mem frame)⟩) := by
        rw [hlive'.programOf_eq, hforked.size, hlive.userMemory_eq hlive' hforked.size]
        · rw [Program.forked]
          congr 2
          funext k
          simp only [Function.update_apply, Program.words]
          by_cases hk : k.val < 36
          · rw [if_pos hk, if_pos hk, hregisters k hk]
          · rw [if_neg hk, if_neg hk]
            exact (ite_self 0).symm
        · rw [← hforked.size]
          exact hcopy
      rw [h.programs_turn ht, Kernel.enter_self]
      change Effect _ _ (Function.update _ j (programOf m' np))
      rw [hchild]
      exact Effect.fork ((programs_of_lt hi).trans hlive.programOf_eq)
        ((programs_of_lt hj).trans hidle.programOf_eq)

theorem Owners.programs_exec (h : Owners L s) (hi : i < L.nproc)
    (huse : (s.proc i).state ≠ .unused) {ip : Inode} {path : List Char}
    {argv : List (List (BitVec 8))} {argc : ℕ}
    (hcall : Vm.exec L s.machine (s.proc i) (some ip) path argv = .ok (some argc, p, m)) :
    Effect (programs L s) (.exec i (some ip)) (programs L (s.set i p m)) := by
  obtain ⟨frame, user, kern, hlive, -⟩ := h.live hi huse
  have ht := h.exec hi huse hcall
  rw [h.programs_turn ht, Kernel.set_self]
  change Effect _ _ (Function.update _ i (programOf m p))
  rcases exec_outcome hlive (h.apart_owned hi) h.nonnull (some ip) path argv with
    ⟨p', m', hfail⟩ | ⟨inode, root, sz, sp, m₁, m₂, m₃, m₄, m', hip, hstaged, hok, hdone⟩ |
    ⟨-, e, hpanic⟩
  · rw [hfail] at hcall
    cases hcall
  · rw [hok] at hcall
    cases hcall
    cases hip
    have hruns := hstaged.runs hdone hlive (h.apart_owned hi) h.nonnull
    rw [hdone.live.programOf_eq]
    refine Effect.exec ((programs_of_lt hi).trans hlive.programOf_eq)
      ⟨hruns.size, hruns.image, hruns.fits, hruns.guard, hruns.stack, hruns.above, ?_, ?_⟩
    · change (if epc.val < 36 then m.mem frame epc else 0) = _
      rw [if_pos (by decide), hdone.epc_eq]
    · change (if Vm.sp.val < 36 then m.mem frame Vm.sp else 0)
        = if a1.val < 36 then m.mem frame a1 else 0
      rw [if_pos (by decide), if_pos (by decide), hdone.sp_eq, hdone.a1_eq]
  · rw [hpanic] at hcall
    cases hcall

/-- An `exec` that fails before the commit is a turn in which nothing happens. -/
theorem Owners.exec_failed (h : Owners L s) (hi : i < L.nproc) (huse : (s.proc i).state ≠ .unused)
    {kern : ℕ} (hkern : (s.proc i).kPagetable = some kern) {ip : Option Inode} {path : List Char}
    {argv : List (List (BitVec 8))} (hroom : ¬ Stranded L s.machine kern ip argv)
    (hcall : Vm.exec L s.machine (s.proc i) ip path argv = .ok (none, p, m)) :
    Turn L s (s.set i p m) i ∧ programs L (s.set i p m) = programs L s := by
  obtain ⟨frame, user, kern', hlive, -⟩ := h.live hi huse
  obtain rfl : kern = kern' := Option.some.inj (hkern.symm.trans hlive.kPagetable)
  have hapart := h.apart_owned hi
  have hsound := h.sound i hi
  obtain ⟨rfl, hmoves⟩ := exec_refused hlive hapart h.nonnull hroom hcall
  have haway : Away (owned s.machine (s.proc i)) ∅ s.machine := fun page hpage =>
    ⟨Set.notMem_empty page, fun hfree => hapart.apart page hfree hpage⟩
  have hsame := (hmoves.away haway).2
  obtain ⟨hsound', howned⟩ := hsound.frame hsame
  have hextend := hmoves.extend haway
  rw [Set.empty_union] at hextend
  have ht : Turn L s (s.set i (s.proc i) m) i :=
    Turn.set hi (by rw [howned]; exact hextend) hsound' rfl
  refine ⟨ht, ?_⟩
  rw [h.programs_turn ht, Kernel.set_self]
  change Function.update (programs L s) i (programOf m (s.proc i)) = _
  rw [hsound.programOf_frame hsame, ← programs_of_lt hi, Function.update_eq_self]

/-- A `growproc` that finds no pages is a turn in which nothing happens to the program. -/
theorem Owners.growproc_failed (h : Owners L s) (hi : i < L.nproc)
    (huse : (s.proc i).state ≠ .unused) {user : ℕ} (huser : (s.proc i).pagetable = some user)
    {n : Int} (hhi : n < 2 ^ 31) (hshort : s.machine.free.length
      < userNeed s.machine user (s.proc i).sz ((s.proc i).sz + n.toNat))
    (hcall : Vm.growproc L s.machine (s.proc i) n = .ok (false, p, m)) :
    Turn L s (s.set i p m) i ∧ programs L (s.set i p m) = programs L s := by
  obtain ⟨frame, user', kern, hlive, hflags⟩ := h.live hi huse
  obtain rfl : user = user' := Option.some.inj (huser.symm.trans hlive.pagetable)
  have hsound := h.sound i hi
  have hapart := h.apart_owned hi
  obtain ⟨rfl, hrefused⟩ := hlive.growproc_refused hapart hhi hshort hcall
  have ht : Turn L s (s.set i (s.proc i) m) i :=
    Turn.set hi hrefused.moves ⟨hsound.kstack, hsound.kstackPa,
      Or.inr ⟨frame, user, kern, hrefused.live, hflags.of_flags_eq fun vpn hvpn => by
        rw [hrefused.userMap vpn (hlive.space.small vpn hvpn)]⟩⟩ rfl
  refine ⟨ht, ?_⟩
  have hkeep : ∀ page, page ∉ tables s.machine.mem user → page ∈ owned s.machine (s.proc i) →
      m.mem page = s.machine.mem page := fun page htable hpage =>
    hrefused.keep page htable fun hfree => hapart.apart page hfree hpage
  have hmemory : userMemory m user = userMemory s.machine user := by
    apply hlive.userMemory_eq hrefused.live rfl
    intro vpn hvpn
    rw [hrefused.userMap vpn (hlive.space.small vpn hvpn)]
    refine ⟨rfl, hkeep _ (hlive.space.apart vpn hvpn) ?_⟩
    rw [hlive.owned_eq]
    exact Or.inr (Or.inl (Or.inr ⟨vpn, hvpn, rfl⟩))
  have hframe : m.mem frame = s.machine.mem frame := by
    refine hkeep frame (fun htable => hlive.frame_apart (Or.inl (Or.inl htable))) ?_
    rw [hlive.owned_eq]
    exact Or.inl rfl
  rw [h.programs_turn ht, Kernel.set_self]
  change Function.update (programs L s) i (programOf m (s.proc i)) = _
  rw [hrefused.live.programOf_eq, hmemory, hframe, ← hlive.programOf_eq, ← programs_of_lt hi,
    Function.update_eq_self]

theorem Owners.programs_userinit (h : Owners L s) (hcall : Vm.userinit L s = .ok (true, s')) :
    Effect (programs L s) .userinit (programs L s') := by
  obtain ⟨k, ht⟩ := h.userinit hcall
  obtain ⟨j, np, m', frame, user, kern, rfl, hj, hidle, hstate, hsize, hlive, hepc, hsp, hopen,
    hbytes⟩ := userinit_first h.vacancies hcall
  obtain rfl : k = j := by
    by_contra hne
    have hother := ht.others j (Ne.symm hne)
    change (s.enter j np m').proc j = _ at hother
    rw [Kernel.enter_self] at hother
    rw [hother, hidle.state] at hstate
    cases hstate
  rw [h.programs_turn ht]
  change Effect _ _ (Function.update _ k (programOf m' ((s.enter k np m').proc k)))
  rw [Kernel.enter_self, hlive.programOf_eq]
  have hpages : pages np.sz = 1 := by
    rw [hsize]
    decide
  refine Effect.userinit ((programs_of_lt hj).trans hidle.programOf_eq)
    ⟨hsize, ?_, ?_, ?_⟩
  · intro va
    change userMemory m' user va = _
    by_cases hva : va < pgSize
    · rw [if_pos hva, userMemory, if_pos, hbytes va hva]
      rw [Nat.div_eq_of_lt hva]
      refine ⟨?_, hlive.space.mapped 0 (by rw [hpages]; exact Nat.zero_lt_one), hopen⟩
      rw [pgSize] at hva
      rw [maxVa]
      omega
    · rw [if_neg hva, userMemory, if_neg]
      rintro ⟨hsmall, hin⟩
      rw [maxVa] at hsmall
      rw [pgSize] at hva hin
      have hbelow := hlive.open_below (by omega) hin
      omega
  · change (if epc.val < 36 then m'.mem frame epc else 0) = _
    rw [if_pos (by decide), hepc]
  · change (if Vm.sp.val < 36 then m'.mem frame Vm.sp else 0) = _
    rw [if_pos (by decide), hsp]

/-- A `copyout` is a turn of the process it writes to. -/
theorem Owners.copyout (h : Owners L s) (hi : i < L.nproc) (huse : (s.proc i).state ≠ .unused)
    {user va : ℕ} (huser : (s.proc i).pagetable = some user) {bytes : List (BitVec 8)} {ok : Bool}
    (hcall : Vm.copyout s.machine user va bytes = .ok (ok, m)) {prog : Program}
    (hprog : programs L s i = some prog) : Turn L s { s with machine := m } i ∧
      programs L { s with machine := m }
        = Function.update (programs L s) i (some (prog.deliver va bytes)) := by
  obtain ⟨frame, user', kern, hlive, hflags⟩ := h.live hi huse
  obtain rfl : user = user' := Option.some.inj (huser.symm.trans hlive.pagetable)
  obtain ⟨ok', m', hcopy, hfree, hsame⟩ := hlive.copyout va bytes
  rw [hcall] at hcopy
  cases hcopy
  have ht := h.touch hi hlive hflags hfree hsame
  refine ⟨ht, ?_⟩
  rw [h.programs_turn ht]
  rw [programs_of_lt hi] at hprog
  have htables : ∀ page ∈ tables s.machine.mem user ∪ tables s.machine.mem kern,
      m.mem page = s.machine.mem page := by
    intro page hpage
    apply hsame
    rintro ⟨vpn, hvpn, rfl⟩
    rcases hpage with hpage | hpage
    · exact hlive.space.apart vpn hvpn hpage
    · exact Set.disjoint_left.mp hlive.disjoint (Or.inr ⟨vpn, hvpn, rfl⟩) hpage
  have hframe : m.mem frame = s.machine.mem frame := by
    apply hsame
    intro htarget
    exact hlive.frame_apart (Or.inl (Or.inr htarget))
  change Function.update (programs L s) i (programOf m (s.proc i)) = _
  rw [hlive.copyout_deliver (h.ownsNonnull i hi) hcall (hlive.stable htables) hframe hprog]

/-- A store of the user is a `copyout` of one byte. -/
theorem Live.copyout_of_store {frame user kern va : ℕ} {m m' : Machine} {byte : BitVec 8}
    (h : Live L m p frame user kern) (hnull : 0 ∉ owned m p)
    (hstore : storeByte m user va byte = some m') :
    Vm.copyout m user va [byte] = .ok (true, m') := by
  rw [storeByte] at hstore
  split at hstore
  · rename_i huse
    cases hstore
    rcases walkaddr_user (h.userPages hnull) va with ⟨-, -, hwalk⟩ | ⟨hnot, -⟩
    · have hcopy := copyout_page (Nat.mul_mod_right _ _) hwalk (List.cons_ne_nil byte [])
        (show va % 4096 + [byte].length ≤ 4096 from Nat.mod_lt va (by decide))
      rw [Nat.div_add_mod] at hcopy
      exact hcopy
    · exact absurd ⟨huse.1, huse.2.1⟩ hnot
  · cases hstore

theorem isSome_of_store {user va : ℕ} {m m' : Machine} {byte : BitVec 8}
    (hstore : storeByte m user va byte = some m') : (userMemory m user va).isSome := by
  rw [storeByte] at hstore
  split at hstore
  · rename_i huse
    exact isSome_userMemory.mpr ⟨huse.1, huse.2.1⟩
  · cases hstore

theorem Owners.programs_store (h : Owners L s) (hi : i < L.nproc)
    (huse : (s.proc i).state ≠ .unused) {user va : ℕ} (huser : (s.proc i).pagetable = some user)
    {byte : BitVec 8} (hstore : storeByte s.machine user va byte = some m) :
    Effect (programs L s) (.store i va byte) (programs L { s with machine := m }) := by
  obtain ⟨frame, user', kern, hlive, -⟩ := h.live hi huse
  obtain rfl : user = user' := Option.some.inj (huser.symm.trans hlive.pagetable)
  have hprog := (programs_of_lt hi).trans hlive.programOf_eq
  have hopen := isSome_of_store hstore
  rw [(h.copyout hi huse huser (hlive.copyout_of_store (h.ownsNonnull i hi) hstore) hprog).2]
  rw [Program.deliver, if_pos hopen, Program.deliver]
  exact Effect.store hprog hopen

/-- Saving the registers is a turn of the process. -/
theorem Owners.save (h : Owners L s) (hi : i < L.nproc) (huse : (s.proc i).state ≠ .unused)
    {frame : ℕ} (hframe : (s.proc i).trapframe = some frame) (registers : Fin 512 → Word) :
    Turn L s { s with machine := saveRegisters s.machine frame registers } i ∧
      Effect (programs L s) (.trap i registers)
        (programs L { s with machine := saveRegisters s.machine frame registers }) := by
  obtain ⟨frame', user, kern, hlive, hflags⟩ := h.live hi huse
  obtain rfl : frame = frame' := Option.some.inj (hframe.symm.trans hlive.trapframe)
  have hsound := h.sound i hi
  have hother : ∀ page, page ≠ frame →
      (saveRegisters s.machine frame registers).mem page = s.machine.mem page :=
    fun page hne => Function.update_of_ne hne _ _
  obtain ⟨hlive', hmoves, hentry⟩ := hlive.touch_frame (h.apart_owned hi)
    (show (saveRegisters s.machine frame registers).free = s.machine.free from rfl) hother
  have ht : Turn L s { s with machine := saveRegisters s.machine frame registers } i :=
    ⟨hi, fun _ _ => rfl, hmoves, ⟨hsound.kstack, hsound.kstackPa, Or.inr ⟨frame, user, kern, hlive',
      hflags.of_flags_eq fun vpn _ => by rw [hentry]⟩⟩, rfl, rfl⟩
  refine ⟨ht, ?_⟩
  have hprog := hlive.programOf_eq
  have hmemory : userMemory (saveRegisters s.machine frame registers) user
      = userMemory s.machine user := by
    apply hlive.userMemory_eq hlive' rfl
    intro vpn hvpn
    rw [hentry]
    refine ⟨rfl, hother _ ?_⟩
    rintro heq
    exact hlive.frame_apart (Or.inl (Or.inr ⟨vpn, hvpn, heq⟩))
  have hwords : Program.words ((saveRegisters s.machine frame registers).mem frame)
      = Program.words registers := by
    funext k
    simp only [Program.words, saveRegisters, Machine.fill, Function.update_self]
    split <;> rfl
  rw [h.programs_turn ht]
  change Effect _ _ (Function.update _ i
    (programOf (saveRegisters s.machine frame registers) (s.proc i)))
  rw [hlive'.programOf_eq, hmemory, hwords]
  exact Effect.trap ((programs_of_lt hi).trans hprog)

/-- A round of `wait` stores the status in the memory of the parent and ends the program of
the child, or it changes nothing. -/
theorem Owners.programs_wait (h : Owners L s) (hi : i < L.nproc)
    (huse : (s.proc i).state ≠ .unused) {addr : ℕ} {result : Waited}
    (hcall : Vm.wait L s i addr = .ok (result, s')) :
    Effect (programs L s) (.wait i addr) (programs L s') := by
  obtain ⟨frame, user, kern, hlive, -⟩ := h.live hi huse
  obtain ⟨prog, hprog, -, -⟩ := h.program hi huse
  rw [Vm.wait] at hcall
  split at hcall
  · rename_i j hfind
    have hj := List.mem_range.mp (List.mem_of_find?_eq_some hfind)
    have hzombie : (s.proc j).parent = some i ∧ (s.proc j).state = .zombie := by
      simpa using List.find?_some hfind
    have huse' : (s.proc j).state ≠ .unused := by
      rw [hzombie.2]
      decide
    obtain ⟨child, hchild, -, -⟩ := h.program hj huse'
    obtain ⟨⟨ok, m₁⟩, hcopy, hcall⟩ := bind_eq_ok hcall
    have hfirst : Owners L { s with machine := m₁ } ∧ (addr = 0 → ok = true) ∧
        programs L { s with machine := m₁ } = Function.update (programs L s) i
          (some (if addr = 0 then prog else prog.deliver addr (intBytes (s.proc j).xstate))) := by
      split at hcopy
      · rename_i haddr
        rw [hlive.pagetable] at hcopy
        obtain ⟨ht, heq⟩ := h.copyout hi huse hlive.pagetable hcopy hprog
        rw [if_neg haddr]
        exact ⟨h.turn ht, fun hzero => absurd hzero haddr, heq⟩
      · rename_i haddr
        cases hcopy
        rw [if_pos (not_not.mp haddr), ← hprog, Function.update_eq_self]
        exact ⟨h, fun _ => rfl, rfl⟩
    obtain ⟨howners, hzero, hmid⟩ := hfirst
    dsimp only at hcall
    split at hcall
    · rename_i hok
      cases hcall
      have haddr : addr ≠ 0 := by
        intro haddr
        rw [hzero haddr] at hok
        cases hok
      rw [hmid, if_neg haddr]
      exact Effect.waitFailed hprog
    · obtain ⟨m', hfree, -, hlast⟩ := howners.freeproc hj huse'
      rw [show Vm.freeproc m₁ (s.proc j) = .ok (cleared (s.proc j), m') from hfree,
        ok_bind] at hcall
      cases hcall
      have hend := howners.programs_turn hlast
      rw [Kernel.set_self, (cleared_idle (s.proc j)).programOf_eq, hmid] at hend
      exact hend ▸ Effect.reaped hprog hchild
  · have hsame : AllKeep s s' := by
      split at hcall
      · cases hcall
        exact AllKeep.refl s
      · cases hcall
        refine AllKeep.set ⟨?_, rfl, rfl, rfl, rfl, rfl, rfl⟩
        exact iff_of_false nofun huse
    rw [hsame.programs_eq]
    exact Effect.waiting

end Calls

/-- The process an event happens to, with the exception of the first one. -/
def Event.caller : Event → Option ℕ
  | .userinit => none
  | .fork i | .exec i _ | .growproc i _ | .exit i | .wait i _ | .copyout i _ _ | .store i _ _
  | .trap i _ => some i

/-- An event of other processes leaves a program alone, unless it ends it. -/
theorem Effect.frame {P P' : Programs} {event : Event} {i : ℕ} (h : Effect P event P')
    (hcaller : event.caller ≠ some i) (hbefore : P i ≠ none) (hafter : P' i ≠ none) :
    P' i = P i := by
  have hne : ∀ j, some j ≠ some i → i ≠ j := by
    rintro j hj rfl
    exact hj rfl
  have hfree : ∀ j, P j = none → i ≠ j := by
    rintro j hnone rfl
    exact hbefore hnone
  cases h with
  | userinit hnew hprog => exact Function.update_of_ne (hfree _ hnew) _ _
  | fork hparent hnew => exact Function.update_of_ne (hfree _ hnew) _ _
  | forkFailed | execFailed | growprocFailed | exit | waiting => rfl
  | reaped hprog hchild =>
      rename_i j addr status prog child
      have hlast : i ≠ j := by
        rintro rfl
        exact hafter (Function.update_self _ _ _)
      rw [Function.update_of_ne hlast, Function.update_of_ne (hne _ hcaller)]
  | exec | growproc | waitFailed | copyout | store | trap =>
      exact Function.update_of_ne (hne _ hcaller) _ _

section Run

variable {L : Layout} {memory : Set ℕ} {m : Machine} {s₀ s s' : Kernel}
  {calls : List (Kernel × Event × Kernel)} {i : ℕ}

/-- A step keeps the pages accounted for and has its effect on the programs. -/
theorem Accounted.activity (h : Accounted L memory s) {event : Event}
    (hstep : Activity L s event s') :
    Accounted L memory s' ∧ Effect (programs L s) event (programs L s') := by
  cases hstep with
  | userinit hcall => exact ⟨h.step (.userinit hcall), h.owners.programs_userinit hcall⟩
  | fork hi huse hcall => exact ⟨h.step (.fork hi huse hcall), h.owners.programs_fork hi huse hcall⟩
  | exec hi huse hcall => exact ⟨h.step (.exec hi huse hcall), h.owners.programs_exec hi huse hcall⟩
  | execFailed hi huse hkern hroom hcall =>
      obtain ⟨ht, heq⟩ := h.owners.exec_failed hi huse hkern hroom hcall
      rw [heq]
      exact ⟨h.turn ht, Effect.execFailed⟩
  | growprocFailed hi huse hhi huser hshort hcall =>
      obtain ⟨ht, heq⟩ := h.owners.growproc_failed hi huse huser hhi hshort hcall
      rw [heq]
      exact ⟨h.turn ht, Effect.growprocFailed⟩
  | growproc hi huse hlo hhi hcall =>
      exact ⟨h.step (.growproc hi huse hlo hhi hcall),
        h.owners.programs_growproc hi huse hlo hhi hcall⟩
  | exit hi huse hcall =>
      refine ⟨h.step (.exit hi huse hcall), ?_⟩
      rw [(exit_keeps huse hcall).programs_eq]
      exact Effect.exit
  | wait hi huse hcall => exact ⟨h.step (.wait hi huse hcall), h.owners.programs_wait hi huse hcall⟩
  | copyout hi huse huser hcall =>
      obtain ⟨prog, hprog, -, -⟩ := h.owners.program hi huse
      obtain ⟨ht, heq⟩ := h.owners.copyout hi huse huser hcall hprog
      rw [heq]
      exact ⟨h.turn ht, Effect.copyout hprog⟩
  | store hi huse huser hstore =>
      obtain ⟨frame, user', kern, hlive, hflags⟩ := h.owners.live hi huse
      have hsame := Option.some.inj (huser.symm.trans hlive.pagetable)
      obtain ⟨prog, hprog, -, -⟩ := h.owners.program hi huse
      subst hsame
      have hcopy := hlive.copyout_of_store (h.owners.ownsNonnull _ hi) hstore
      exact ⟨h.turn (h.owners.copyout hi huse huser hcopy hprog).1,
        h.owners.programs_store hi huse huser hstore⟩
  | trap hi huse hframe =>
      obtain ⟨ht, heffect⟩ := h.owners.save hi huse hframe _
      exact ⟨h.turn ht, heffect⟩

/-- Over a run from a state whose pages are accounted for. -/
theorem Accounted.trace (h : Accounted L memory s₀) (hrun : Trace (Activity L) s₀ calls s) :
    Accounted L memory s ∧ Trace Effect (programs L s₀)
      (calls.map fun e => (programs L e.1, e.2.1, programs L e.2.2)) (programs L s) :=
  hrun.map (Accounted L memory) (programs L) (fun _ event => event) h
    fun _ _ _ hbefore hstep => hbefore.activity hstep

theorem boot_accounted (hapart : Apart m ∅) (hnull : 0 ∉ m.free) (hboot : boot L m = .ok s₀) :
    Accounted L { page | page ∈ m.free } s₀ :=
  reachable_accounted hapart hnull hboot Relation.ReflTransGen.refl

/-- As long as a process is in use, what other processes and the kernel do for them does not
change its program: neither its memory nor its registers. -/
theorem program_left_alone {last : Kernel} {later : List (Kernel × Event × Kernel)}
    (hapart : Apart m ∅) (hnull : 0 ∉ m.free) (hboot : boot L m = .ok s₀)
    (hrun : Trace (Activity L) s₀ calls s) (hlater : Trace (Activity L) s later last)
    (hi : i < L.nproc) (huse : (s.proc i).state ≠ .unused)
    (halone : ∀ e ∈ later, e.2.1.caller ≠ some i ∧ (e.2.2.proc i).state ≠ .unused) :
    programs L last i = programs L s i := by
  have haccounted := ((boot_accounted hapart hnull hboot).trace hrun).1
  have hsome : ∀ {s' : Kernel}, Accounted L { page | page ∈ m.free } s' →
      (s'.proc i).state ≠ .unused → programs L s' i ≠ none := by
    intro s' haccounted' huse' hnone
    obtain ⟨prog, hprog, -, -⟩ := haccounted'.owners.program hi huse'
    rw [hprog] at hnone
    cases hnone
  have hstep := hlater.forall_of
    (fun s' => Accounted L { page | page ∈ m.free } s' ∧ (s'.proc i).state ≠ .unused ∧
      programs L s' i = programs L s i)
    (P := fun _ event after => event.caller ≠ some i ∧ (after.proc i).state ≠ .unused)
    (Q := fun _ _ _ => True) ⟨haccounted, huse, rfl⟩ halone ?_
  · exact hstep.2.2.2
  · rintro before event after ⟨hbefore, huse', heq⟩ ⟨hcaller, hafter⟩ hactivity
    obtain ⟨haccounted', heffect⟩ := hbefore.activity hactivity
    refine ⟨trivial, haccounted', hafter, ?_⟩
    rw [← heq]
    exact heffect.frame hcaller (hsome hbefore huse') (hsome haccounted' hafter)

/-- A first process and a child of it, which may store to page 0. -/
theorem exists_child : ∃ (m : Machine) (s₀ s : Kernel) (calls : List (Kernel × Event × Kernel))
    (j frame user : ℕ), Apart m ∅ ∧ 0 ∉ m.free ∧ boot virt m = .ok s₀ ∧
    Trace (Activity virt) s₀ calls s ∧ j < virt.nproc ∧ j ≠ 0 ∧ s.initproc = some 0 ∧
    (s.proc 0).state = .runnable ∧ (s.proc j).state = .runnable ∧ (s.proc j).parent = some 0 ∧
    (s.proc j).trapframe = some frame ∧ (s.proc j).pagetable = some user ∧
    Open s.machine user 0 ∧ entry s.machine.mem user 0 &&& pteW ≠ 0 := by
  obtain ⟨m, s₀, s, j, np, m', user, hapart, hnull, hboot, hinit, hfork, hj, hne, hstate, huser,
    hsize, hinitproc, hunused, hforked⟩ := exists_forked
  have hzero : 0 < virt.nproc := by decide
  have huse : (s.proc 0).state ≠ .unused := by
    rw [hstate]
    decide
  have hrun := Trace.nil.snoc (Activity.userinit hinit)
  have h := ((boot_accounted hapart hnull hboot).trace hrun).1.owners
  obtain ⟨frame₀, user₀, kern₀, hlive₀, hflagged⟩ := h.live hzero huse
  obtain rfl : user₀ = user := Option.some.inj (hlive₀.pagetable.symm.trans huser)
  have hpage : 0 < pages (s.proc 0).sz := by
    rw [hsize]
    decide
  -- Page 0 of the first process is the user's, as `userinit` has left it.
  have huserPage : entry s.machine.mem user₀ 0 &&& pteU ≠ 0 := by
    obtain ⟨k, np', m'', frame, user, kern, rfl, hk, -, hrunnable, -, hlive, -, -, hu, -⟩ :=
      userinit_first (boot_accounted hapart hnull hboot).owners.vacancies hinit
    have hself : (s₀.enter k np' m'').proc k = np' := Kernel.enter_self
    by_cases hk0 : k = 0
    · subst hk0
      change ((s₀.enter 0 np' m'').proc 0).pagetable = some user₀ at huser
      rw [hself, hlive.pagetable] at huser
      cases huser
      exact hu
    · have hnot := hunused k hk hk0
      change ((s₀.enter k np' m'').proc k).state = .unused at hnot
      rw [hself, hrunnable] at hnot
      cases hnot
  have hwrite : entry s.machine.mem user₀ 0 &&& pteW ≠ 0 := by
    have hand := congrArg (· &&& pteW) (hflagged.flags 0 hpage)
    simp only [BitVec.and_or_distrib_right, show pteU &&& pteW = 0#64 by decide, BitVec.or_zero,
      pteFlags, BitVec.and_assoc, show (0x3FF : Word) &&& pteW = pteW by decide] at hand
    rw [hand]
    decide
  obtain ⟨frame', user', kern', hlive, hcopy⟩ := hforked.live
  obtain ⟨hflags, -⟩ := hcopy 0 (by rw [hforked.size]; exact hpage)
  have hother : (s.enter j np m').proc 0 = s.proc 0 := Kernel.enter_of_ne hne.symm
  have hself : (s.enter j np m').proc j = np := Kernel.enter_self
  refine ⟨m, s₀, s.enter j np m', _, j, frame', user', hapart, hnull, hboot,
    hrun.snoc (.fork hzero huse hfork), hj, hne, hinitproc, ?_, ?_, ?_, ?_, ?_, ?_, ?_⟩
  · rw [hother, hstate]
  · rw [hself, hforked.state]
  · rw [hself, hforked.parent]
  · rw [hself, hlive.trapframe]
  · rw [hself, hlive.pagetable]
  · exact (open_of_flags hflags).mpr ⟨hlive₀.space.mapped 0 hpage, huserPage⟩
  · change entry m'.mem user' 0 &&& pteW ≠ 0
    rwa [and_of_flags hflags (by decide)]

/-- A child stores to its memory, which was a copy of that of its parent, traps and exits. -/
theorem program_left_alone_child : ∃ (m : Machine) (s₀ s s₁ s₂ last : Kernel) (j : ℕ)
    (registers : Fin 512 → Word), boot virt m = .ok s₀ ∧ (s.proc 0).state ≠ .unused ∧
    Activity virt s (.store j 0 7) s₁ ∧ Activity virt s₁ (.trap j registers) s₂ ∧
    Activity virt s₂ (.exit j) last ∧ programs virt last 0 = programs virt s 0 := by
  obtain ⟨m, s₀, s, calls, j, frame, user, hapart, hnull, hboot, hrun, hj, hne, hinitproc, hstate,
    hchild, hparent, hframe, huser, hopen, hwrite⟩ := exists_child
  have hzero : 0 < virt.nproc := by decide
  have huse : (s.proc 0).state ≠ .unused := by
    rw [hstate]
    decide
  have huse' : (s.proc j).state ≠ .unused := by
    rw [hchild]
    decide
  have hawake : (s.proc 0).state ≠ .sleeping := by
    rw [hstate]
    decide
  let s₁ : Kernel :=
    { s with machine := s.machine.write (pte2pa (entry s.machine.mem user 0)) 0 [7] }
  let s₂ : Kernel := { s₁ with machine := saveRegisters s₁.machine frame fun _ => 1 }
  have hstore : Activity virt s (.store j 0 7) s₁ :=
    .store hj huse' huser (if_pos ⟨by decide, hopen, hwrite⟩)
  have htrap : Activity virt s₁ (.trap j fun _ => 1) s₂ := .trap (s := s₁) hj huse' hframe
  obtain ⟨last, hended, -, hstates⟩ := exit_awake (s := s₂) hinitproc hparent hne.symm hne.symm
    hawake hawake 7
  have hexit : Activity virt s₂ (.exit j) last := .exit (s := s₂) hj huse' hended
  have hcaller : some j ≠ some 0 := fun heq => hne (Option.some.inj heq)
  refine ⟨m, s₀, s, s₁, s₂, last, j, _, hboot, huse, hstore, htrap, hexit,
    program_left_alone hapart hnull hboot hrun
      (((Trace.nil.snoc hstore).snoc htrap).snoc hexit) hzero huse ?_⟩
  intro e he
  simp only [List.mem_cons, List.not_mem_nil, or_false] at he
  rcases he with rfl | rfl | rfl
  · refine ⟨hcaller, ?_⟩
    change (last.proc 0).state ≠ .unused
    rw [hstates 0 hne.symm]
    exact huse
  · exact ⟨hcaller, huse⟩
  · exact ⟨hcaller, huse⟩

end Run

end OperateSystem.Vm
