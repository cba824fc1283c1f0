import OperateSystem.Vm.Refinement

/-!
# What `vmprint` prints

`vmprint` walks a page table and prints a line for every entry that is in use, with a deeper
indentation for every level.  A line names its index in its own table only; the lines before it
tell in which tables it stands.  Read in this way the lines of a well-formed table are its
mappings, in the order of the virtual addresses.
-/

namespace OperateSystem.Vm

open OperateSystem.PointerTree OperateSystem.Traces

/-- A line of `vmprint`: how many `||` stand before the last one, the index, the entry, and the
address in it. -/
structure PrintedLine where
  level : ℕ
  index : Fin 512
  pte : Word
  pa : ℕ

/-- `printf("|| ... ||%d: pte %p pa %p\n", i, pgtbl[i], PTE2PA(pte))`. -/
def printLine (level : ℕ) (i : Fin 512) (pte : Word) : PrintedLine :=
  ⟨level, i, pte, pte2pa pte * pgSize⟩

/-- The lines that `vmprint(pgtbl, level)` prints after the first one, where `levels` is
`3 - level`. -/
def vmprintLines (m : Machine) : (levels : ℕ) → (pagetable : ℕ) → Except Fault (List PrintedLine)
  | 0, _ => .error (.panic "vmprint: wrong")
  | levels + 1, pagetable =>
      List.foldlM (fun printed (i : Fin 512) =>
        let pte := m.mem pagetable i
        if Valid pte ∧ ¬ Leaf pte then do
          let below ← vmprintLines m levels (pte2pa pte)
          return printed ++ printLine (2 - levels) i pte :: below
        else if levels = 0 ∧ Valid pte then return printed ++ [printLine 2 i pte]
        else return printed) [] (List.finRange 512)

/-- What a reader makes of the lines: the entries of the last level with their virtual page
numbers, from the indices of the lines read last on the other levels. -/
def readLines : List PrintedLine → (top middle : ℕ) → List (ℕ × Word)
  | [], _, _ => []
  | line :: rest, top, middle =>
      if line.level = 0 then readLines rest line.index middle
      else if line.level = 1 then readLines rest top line.index
      else ((top * 512 + middle) * 512 + line.index, line.pte) :: readLines rest top middle

/-! ## The lines of a table -/

/-- The lines below a table with `depth` levels under it. -/
def tableLines (mem : ℕ → Page) : (depth : ℕ) → (page : ℕ) → List PrintedLine
  | 0, page => (List.finRange 512).flatMap fun i =>
      if Valid (mem page i) then [printLine 2 i (mem page i)] else []
  | depth + 1, page => (List.finRange 512).flatMap fun i =>
      if Valid (mem page i) then
        printLine (1 - depth) i (mem page i) :: tableLines mem depth (pte2pa (mem page i))
      else []

/-- The mappings below a table whose virtual page numbers start with `base`. -/
def tableEntries (mem : ℕ → Page) : (depth : ℕ) → (page base : ℕ) → List (ℕ × Word)
  | 0, page, base => (List.finRange 512).flatMap fun i =>
      if Valid (mem page i) then [(base * 512 + i, mem page i)] else []
  | depth + 1, page, base => (List.finRange 512).flatMap fun i =>
      if Valid (mem page i) then tableEntries mem depth (pte2pa (mem page i)) (base * 512 + i)
      else []

section Lines

variable {m : Machine} {mem : ℕ → Page} {root page : ℕ}

/-- A loop that appends what it prints. -/
theorem foldlM_printed {α β : Type} {f : List β → α → Except Fault (List β)} {g : α → List β}
    {xs : List α} (h : ∀ printed, ∀ x ∈ xs, f printed x = .ok (printed ++ g x))
    (printed : List β) : xs.foldlM f printed = .ok (printed ++ xs.flatMap g) := by
  induction xs generalizing printed with
  | nil => simp only [List.foldlM_nil, List.flatMap_nil, List.append_nil]; rfl
  | cons x xs ih =>
      rw [List.foldlM_cons, h printed x (by simp), ok_bind,
        ih (fun printed x' hx' => h printed x' (by simp [hx'])), List.flatMap_cons,
        List.append_assoc]

/-- A loop that prints is the loop that does not, when each round is. -/
theorem foldlM_map {α β : Type} {f : List β → α → Except Fault (List β)}
    {g : Unit → α → Except Fault Unit}
    (h : ∀ printed x, (f printed x).map (fun _ => ()) = g () x) (xs : List α)
    (printed : List β) : (xs.foldlM f printed).map (fun _ => ()) = xs.foldlM g () := by
  induction xs generalizing printed with
  | nil => rfl
  | cons x xs ih =>
      rw [List.foldlM_cons, List.foldlM_cons, ← h printed x]
      cases hround : f printed x with
      | error fault => rfl
      | ok printed' => exact ih printed'

/-- Apart from its lines, the printing loop is `vmprint`. -/
theorem vmprintLines_vmprint (m : Machine) (levels root : ℕ) :
    (vmprintLines m levels root).map (fun _ => ()) = vmprint m levels root := by
  induction levels generalizing root with
  | zero => rfl
  | succ levels ih =>
      rw [vmprintLines, vmprint]
      refine foldlM_map (fun printed i => ?_) _ _
      dsimp only
      by_cases hinner : Valid (m.mem root i) ∧ ¬ Leaf (m.mem root i)
      · rw [if_pos hinner, if_pos hinner, ← ih]
        cases vmprintLines m levels (pte2pa (m.mem root i)) <;> rfl
      · rw [if_neg hinner, if_neg hinner]
        split <;> rfl

/-- `vmprint` gets to the end of a well-formed table. -/
theorem vmprintLines_ok {depth : ℕ} (h : Shape depth m.mem root) :
    vmprintLines m (depth + 1) root = .ok (tableLines m.mem depth root) := by
  induction depth generalizing root with
  | zero =>
      rw [vmprintLines, tableLines]
      refine (foldlM_printed (fun printed i _ => ?_) []).trans (by rw [List.nil_append])
      dsimp only
      by_cases hvalid : Valid (m.mem root i)
      · have hleaf := h.leaf [] root i rfl rfl hvalid
        rw [if_neg fun hinner => hinner.2 hleaf, if_pos ⟨rfl, hvalid⟩, if_pos hvalid]
        rfl
      · rw [if_neg fun hinner => hvalid hinner.1, if_neg fun hprinted => hvalid hprinted.2,
          if_neg hvalid, List.append_nil]
        rfl
  | succ depth ih =>
      rw [vmprintLines, tableLines]
      refine (foldlM_printed (fun printed i _ => ?_) []).trans (by rw [List.nil_append])
      dsimp only
      by_cases hvalid : Valid (m.mem root i)
      · have hinner := h.inner [] root i (Nat.succ_pos depth) rfl hvalid
        have hbelow := ih (h.subtable (next_of_valid hvalid))
        rw [if_pos ⟨hvalid, hinner⟩, if_pos hvalid, hbelow, ok_bind,
          show 2 - (depth + 1) = 1 - depth by omega]
        rfl
      · rw [if_neg fun hinner => hvalid hinner.1, if_neg fun hprinted => hvalid hprinted.2,
          if_neg hvalid, List.append_nil]
        rfl

/-! ## Reading the lines -/

theorem readLines_topLine (i : Fin 512) (pte : Word) (rest : List PrintedLine) (top middle : ℕ) :
    readLines (printLine 0 i pte :: rest) top middle = readLines rest i middle := rfl

theorem readLines_middleLine (i : Fin 512) (pte : Word) (rest : List PrintedLine)
    (top middle : ℕ) :
    readLines (printLine 1 i pte :: rest) top middle = readLines rest top i := rfl

theorem readLines_leafLine (i : Fin 512) (pte : Word) (rest : List PrintedLine)
    (top middle : ℕ) : readLines (printLine 2 i pte :: rest) top middle
      = ((top * 512 + middle) * 512 + i, pte) :: readLines rest top middle := rfl

theorem readLines_leaf (page top middle : ℕ) (rest : List PrintedLine) :
    readLines (tableLines mem 0 page ++ rest) top middle
      = tableEntries mem 0 page (top * 512 + middle) ++ readLines rest top middle := by
  rw [tableLines, tableEntries]
  generalize List.finRange 512 = is
  induction is with
  | nil => rfl
  | cons i is ih =>
      rw [List.flatMap_cons, List.flatMap_cons, List.append_assoc, List.append_assoc, ← ih]
      by_cases hvalid : Valid (mem page i)
      · rw [if_pos hvalid, if_pos hvalid, List.singleton_append, List.singleton_append,
          readLines_leafLine]
      · rw [if_neg hvalid, if_neg hvalid, List.nil_append, List.nil_append]

/-- What the reader remembers of the middle level after the lines is of no use any more. -/
theorem readLines_middle (mem : ℕ → Page) (page top middle : ℕ) : ∃ middle', ∀ rest,
    readLines (tableLines mem 1 page ++ rest) top middle
      = tableEntries mem 1 page top ++ readLines rest top middle' := by
  rw [tableLines, tableEntries]
  generalize List.finRange 512 = is
  induction is generalizing middle with
  | nil => exact ⟨middle, fun _ => rfl⟩
  | cons i is ih =>
      by_cases hvalid : Valid (mem page i)
      · obtain ⟨middle', hrest⟩ := ih i
        refine ⟨middle', fun rest => ?_⟩
        rw [List.flatMap_cons, List.flatMap_cons, if_pos hvalid, if_pos hvalid, List.append_assoc,
          List.append_assoc, ← hrest rest, ← readLines_leaf, List.cons_append]
        exact readLines_middleLine ..
      · obtain ⟨middle', hrest⟩ := ih middle
        refine ⟨middle', fun rest => ?_⟩
        rw [List.flatMap_cons, List.flatMap_cons, if_neg hvalid, if_neg hvalid, List.nil_append,
          List.nil_append, hrest rest]

theorem readLines_top (page top middle : ℕ) :
    readLines (tableLines mem 2 page) top middle = tableEntries mem 2 page 0 := by
  rw [tableLines, tableEntries]
  generalize List.finRange 512 = is
  induction is generalizing top middle with
  | nil => rfl
  | cons i is ih =>
      by_cases hvalid : Valid (mem page i)
      · obtain ⟨middle', hrest⟩ := readLines_middle mem (pte2pa (mem page i)) i middle
        rw [List.flatMap_cons, List.flatMap_cons, if_pos hvalid, if_pos hvalid, Nat.zero_mul,
          Nat.zero_add, ← ih i middle', ← hrest, List.cons_append]
        exact readLines_topLine ..
      · rw [List.flatMap_cons, List.flatMap_cons, if_neg hvalid, if_neg hvalid, List.nil_append,
          List.nil_append, ih]

/-! ## The mappings -/

/-- The path of a virtual page below a table with `depth` levels under it. -/
def downPath (vpn : ℕ) : ℕ → List (Fin 512)
  | 0 => []
  | depth + 1 => idx (depth + 1) vpn :: downPath vpn depth

theorem div_idx (vpn level base : ℕ) (i : Fin 512) :
    vpn / 512 ^ level = base * 512 + i ↔ vpn / 512 ^ (level + 1) = base ∧ idx level vpn = i := by
  rw [pow_succ, ← Nat.div_div_eq_div_mul, Fin.ext_iff, idx]
  have hi := i.isLt
  dsimp only
  omega

theorem mem_tableEntries {depth base vpn : ℕ} {pte : Word} :
    (vpn, pte) ∈ tableEntries mem depth page base ↔ vpn / 512 ^ (depth + 1) = base ∧
      ∃ table, node next mem page (downPath vpn depth) = some table ∧
        Valid (mem table (idx 0 vpn)) ∧ mem table (idx 0 vpn) = pte := by
  induction depth generalizing page base with
  | zero =>
      rw [tableEntries, List.mem_flatMap]
      constructor
      · rintro ⟨i, -, hi⟩
        by_cases hvalid : Valid (mem page i)
        · rw [if_pos hvalid, List.mem_singleton, Prod.mk.injEq] at hi
          obtain ⟨hbase, rfl⟩ := (div_idx vpn 0 base i).mp (by simpa using hi.1)
          exact ⟨hbase, page, rfl, hvalid, hi.2.symm⟩
        · simp [hvalid] at hi
      · rintro ⟨hbase, table, htable, hvalid, rfl⟩
        obtain rfl : page = table := Option.some.inj htable
        refine ⟨idx 0 vpn, List.mem_finRange _, ?_⟩
        have hvpn := (div_idx vpn 0 base (idx 0 vpn)).mpr ⟨hbase, rfl⟩
        rw [if_pos hvalid, List.mem_singleton, ← hvpn, pow_zero, Nat.div_one]
  | succ depth ih =>
      rw [tableEntries, List.mem_flatMap]
      constructor
      · rintro ⟨i, -, hi⟩
        by_cases hvalid : Valid (mem page i)
        · rw [if_pos hvalid] at hi
          obtain ⟨hvpn, table, htable, hentry⟩ := ih.mp hi
          obtain ⟨hbase, rfl⟩ := (div_idx vpn (depth + 1) base i).mp hvpn
          refine ⟨hbase, table, ?_, hentry⟩
          rw [downPath, ← node_child (next_of_valid hvalid)]
          exact htable
        · simp [hvalid] at hi
      · rintro ⟨hbase, table, htable, hentry⟩
        have hvalid : Valid (mem page (idx (depth + 1) vpn)) := by
          by_contra hnot
          simp [downPath, node, next, hnot] at htable
        rw [downPath, ← node_child (next_of_valid hvalid)] at htable
        refine ⟨idx (depth + 1) vpn, List.mem_finRange _, ?_⟩
        rw [if_pos hvalid]
        exact ih.mpr ⟨(div_idx vpn (depth + 1) base _).mpr ⟨hbase, rfl⟩, table, htable, hentry⟩

theorem tableEntries_sorted (depth page base : ℕ) :
    (tableEntries mem depth page base).Pairwise fun a b => a.1 < b.1 := by
  induction depth generalizing page base with
  | zero =>
      rw [tableEntries, List.pairwise_flatMap]
      refine ⟨fun i _ => ?_, (List.pairwise_lt_finRange 512).imp fun {i j} hij x hx y hy => ?_⟩
      · split <;> simp
      · have hlt : (i : ℕ) < j := hij
        split at hx <;> split at hy <;> simp_all
  | succ depth ih =>
      rw [tableEntries, List.pairwise_flatMap]
      refine ⟨fun i _ => ?_, (List.pairwise_lt_finRange 512).imp fun {i j} hij x hx y hy => ?_⟩
      · split
        · exact ih _ _
        · exact .nil
      · have hlt : (i : ℕ) < j := hij
        by_cases hi : Valid (mem page i)
        · by_cases hj : Valid (mem page j)
          · rw [if_pos hi] at hx
            rw [if_pos hj] at hy
            have hx' : x.1 / 512 ^ (depth + 1) = base * 512 + i := (mem_tableEntries.mp hx).1
            have hy' : y.1 / 512 ^ (depth + 1) = base * 512 + j := (mem_tableEntries.mp hy).1
            refine Nat.lt_of_div_lt_div (c := 512 ^ (depth + 1)) ?_
            rw [hx', hy']
            exact Nat.add_lt_add_left hlt _
          · simp [hj] at hy
        · simp [hi] at hx

end Lines

section Process

variable {L : Layout} {m : Machine} {p : Proc} {root frame user kern : ℕ}

/-- `vmprint` of a well-formed table does not panic, and whoever reads its lines finds every
mapped page once, in the order of the virtual addresses, with its entry, and no other page. -/
theorem Table.printed (h : Table m.mem root) : ∃ lines,
    vmprintLines m 3 root = .ok lines ∧ vmprint m 3 root = .ok () ∧
      (readLines lines 0 0).Pairwise (fun a b => a.1 < b.1) ∧
      ∀ vpn pte, (vpn, pte) ∈ readLines lines 0 0 ↔
        vpn < 2 ^ 27 ∧ Valid (entry m.mem root vpn) ∧ entry m.mem root vpn = pte := by
  have hlines := vmprintLines_ok h.shape
  refine ⟨_, hlines, by rw [← vmprintLines_vmprint, hlines]; rfl, ?_, fun vpn pte => ?_⟩
  · rw [readLines_top]
    exact tableEntries_sorted 2 root 0
  · rw [readLines_top, mem_tableEntries, Nat.div_eq_zero_iff]
    have hsize : (512 : ℕ) ^ (2 + 1) = 2 ^ 27 := by norm_num
    constructor
    · rintro ⟨hzero | hvpn, table, htable, hvalid, hpte⟩
      · simp [hsize] at hzero
      · rw [entry_of_node htable]
        exact ⟨hsize ▸ hvpn, hvalid, hpte⟩
    · rintro ⟨hvpn, hvalid, hpte⟩
      obtain ⟨table, htable⟩ := node_of_valid hvalid
      rw [entry_of_node htable] at hvalid hpte
      exact ⟨Or.inr (hsize ▸ hvpn), table, htable, hvalid, hpte⟩

/-- Nothing is mapped from `MAXVA` on. -/
theorem Table.valid_low (h : Table m.mem root) {vpn : ℕ} (hvpn : vpn < 2 ^ 27)
    (hvalid : Valid (entry m.mem root vpn)) : vpn < 2 ^ 26 := by
  obtain ⟨table, htable⟩ := node_of_valid hvalid
  have htop : Valid (m.mem root (idx 2 vpn)) := by
    by_contra hnot
    simp [pathOf, node, next, hnot] at htable
  have hlow := h.low _ htop
  rw [idx] at hlow
  dsimp only at hlow
  omega

/-- Two lists of mappings in the order of the addresses are the same when they have the same
mappings. -/
theorem eq_of_sorted {l l' : List (ℕ × Word)} (h : l.Pairwise fun a b => a.1 < b.1)
    (h' : l'.Pairwise fun a b => a.1 < b.1) (hmem : ∀ x, x ∈ l ↔ x ∈ l') : l = l' := by
  have hne : ∀ {a b : ℕ × Word}, a.1 < b.1 → a ≠ b := by
    rintro a b hlt rfl
    exact lt_irrefl _ hlt
  have hperm : l.Perm l' := (List.perm_ext_iff_of_nodup (h.imp hne) (h'.imp hne)).mpr hmem
  exact hperm.eq_of_pairwise (fun a b _ _ hab hba => absurd hab hba.asymm) h h'

/-- The mappings of a process: its memory, the trapframe and the trampoline. -/
def processEntries (L : Layout) (m : Machine) (user sz frame : ℕ) : List (ℕ × Word) :=
  (List.range (pages sz)).map (fun vpn => (vpn, entry m.mem user vpn)) ++
    [(trapframe, userMap L frame trapframe), (trampoline, userMap L frame trampoline)]

theorem Live.below_trapframe (h : Live L m p frame user kern) : pages p.sz ≤ trapframe := by
  have hpages := h.pages_le
  have hplic := L.plic_lt
  rw [trapframe]
  omega

theorem processEntries_sorted (h : Live L m p frame user kern) :
    (processEntries L m user p.sz frame).Pairwise fun a b => a.1 < b.1 := by
  have htop := h.below_trapframe
  have hnext : trapframe < trampoline := by decide
  rw [processEntries, List.pairwise_append, List.pairwise_map]
  refine ⟨List.pairwise_lt_range, by simp [hnext], ?_⟩
  simp only [List.mem_map, List.mem_range, List.mem_cons, List.not_mem_nil, or_false]
  rintro a ⟨vpn, hvpn, rfl⟩ b (rfl | rfl)
  · exact hvpn.trans_le htop
  · exact (hvpn.trans_le htop).trans hnext

theorem mem_processEntries (h : Live L m p frame user kern) {vpn : ℕ} {pte : Word} :
    (vpn, pte) ∈ processEntries L m user p.sz frame ↔
      vpn < 2 ^ 27 ∧ Valid (entry m.mem user vpn) ∧ entry m.mem user vpn = pte := by
  have htop := h.below_trapframe
  have htrap : entry m.mem user trapframe = userMap L frame trapframe :=
    h.userRest _ htop (by decide)
  have htramp : entry m.mem user trampoline = userMap L frame trampoline :=
    h.userRest _ (htop.trans (by decide)) (by decide)
  simp only [processEntries, List.mem_append, List.mem_map, List.mem_range, List.mem_cons,
    List.not_mem_nil, or_false, Prod.mk.injEq]
  constructor
  · rintro (⟨vpn', hvpn, rfl, rfl⟩ | ⟨rfl, rfl⟩ | ⟨rfl, rfl⟩)
    · have hsmall := h.space.small vpn' hvpn
      exact ⟨by omega, h.space.mapped vpn' hvpn, rfl⟩
    · refine ⟨by decide, ?_, htrap⟩
      rw [htrap, userMap, if_pos rfl]
      exact valid_entry _ _
    · refine ⟨by decide, ?_, htramp⟩
      rw [htramp, userMap, if_neg (by decide), if_pos rfl]
      exact valid_entry _ _
  · rintro ⟨hvpn, hvalid, rfl⟩
    have hlow := h.space.table.valid_low hvpn hvalid
    by_cases hlt : vpn < pages p.sz
    · exact Or.inl ⟨vpn, hlt, rfl, rfl⟩
    · -- Above the memory of the process only two pages are mapped.
      rw [h.userRest vpn (not_lt.mp hlt) hlow, userMap] at hvalid
      split_ifs at hvalid with hframe hcode
      · exact Or.inr (Or.inl ⟨hframe, hframe ▸ htrap⟩)
      · exact Or.inr (Or.inr ⟨hcode, hcode ▸ htramp⟩)
      · exact absurd hvalid not_valid_zero

theorem Live.printed (h : Live L m p frame user kern) : ∃ lines,
    vmprintLines m 3 user = .ok lines ∧ vmprint m 3 user = .ok () ∧
      readLines lines 0 0 = processEntries L m user p.sz frame := by
  obtain ⟨lines, hlines, hprint, hsorted, hmem⟩ := h.space.table.printed
  refine ⟨lines, hlines, hprint, eq_of_sorted hsorted (processEntries_sorted h) ?_⟩
  rintro ⟨vpn, pte⟩
  rw [hmem, mem_processEntries h]

end Process

section Runs

variable {L : Layout} {m : Machine} {s₀ s : Kernel} {calls : List (Kernel × Event × Kernel)}
  {i : ℕ}

/-- **What `vmprint` prints is the address space.**  In every run, `vmprint` of the page table of
a process gets to the end, and whoever reads its lines finds the pages of the memory of the
process, then the trapframe and then the trampoline, with their entries, and nothing else. -/
theorem vmprint_lists_memory (hapart : Apart m ∅) (hnull : 0 ∉ m.free)
    (hboot : boot L m = .ok s₀) (hrun : Trace (Activity L) s₀ calls s) (hi : i < L.nproc)
    (huse : (s.proc i).state ≠ .unused) : ∃ frame user lines,
    (s.proc i).trapframe = some frame ∧ (s.proc i).pagetable = some user ∧
      vmprintLines s.machine 3 user = .ok lines ∧ vmprint s.machine 3 user = .ok () ∧
      readLines lines 0 0 = processEntries L s.machine user (s.proc i).sz frame := by
  have haccounted := ((boot_accounted hapart hnull hboot).trace hrun).1
  obtain ⟨frame, user, kern, hlive, -⟩ := haccounted.owners.live hi huse
  obtain ⟨lines, hlines, hprint, hread⟩ := hlive.printed
  exact ⟨frame, user, lines, hlive.trapframe, hlive.pagetable, hlines, hprint, hread⟩

theorem vmprint_lists_memory_first : ∃ (m : Machine) (s₀ s : Kernel) (frame user : ℕ)
    (lines : List PrintedLine), boot virt m = .ok s₀ ∧ Vm.userinit virt s₀ = .ok (true, s) ∧
    vmprintLines s.machine 3 user = .ok lines ∧
    readLines lines 0 0 = processEntries virt s.machine user (s.proc 0).sz frame := by
  obtain ⟨m, s₀, s, hapart, hnull, hboot, hinit, hstate, -⟩ := exists_first_run
  have huse : (s.proc 0).state ≠ .unused := by
    rw [hstate]
    decide
  obtain ⟨frame, user, lines, -, -, hlines, -, hread⟩ := vmprint_lists_memory hapart hnull hboot
    (Trace.nil.snoc (.userinit hinit)) (by decide) huse
  exact ⟨m, s₀, s, frame, user, lines, hboot, hinit, hlines, hread⟩

end Runs

end OperateSystem.Vm
