import OperateSystem.Newfs.Catalog
import OperateSystem.Newfs.Extents

/-!
# What the calls do to the catalog

Loading an inode moves what the catalog says of its number from the device into memory and
changes nothing else.  A write changes what the catalog says of one file, and a creation
adds one entry and the number that it leads to.
-/

namespace OperateSystem.Newfs

open OperateSystem.Bitmap
open OperateSystem.ByteStore

/-- The catalogs say the same of the number. -/
def Catalog.AgreesAt (catalog' catalog : Catalog) (ino : ℕ) : Prop :=
  (∀ name ftype sub, catalog'.entry ino name ftype sub ↔ catalog.entry ino name ftype sub) ∧
    catalog'.file ino = catalog.file ino

theorem Catalog.AgreesAt.refl (catalog : Catalog) (ino : ℕ) : catalog.AgreesAt catalog ino :=
  ⟨fun _ _ _ => Iff.rfl, rfl⟩

theorem Archived.agrees {catalog catalog' : Catalog} {bytes : ℕ → Byte} {ino : ℕ}
    {ftype : FileType} (h : Archived catalog bytes ino ftype)
    (hsame : catalog'.AgreesAt catalog ino) : Archived catalog' bytes ino ftype := by
  refine ⟨?_, h.distinct, ?_⟩
  · intro hdir name t sub
    rw [hsame.1]
    exact h.entry hdir name t sub
  · intro hfile
    rw [hsame.2]
    exact h.file hfile

section Growing

variable {catalog catalog' : Catalog} {heap heap' : List Dentry} {ptrs : List DentryPtr}
  {name : List Byte} {ftype : FileType} {sub ino : ℕ} {inode : Inode}

theorem hasEntry_grows (hgrows : HeapGrows heap heap') (hlt : ∀ p ∈ ptrs, p < heap.length) :
    HasEntry heap' ptrs name ftype sub ↔ HasEntry heap ptrs name ftype sub := by
  refine exists_congr fun p => and_congr_right fun hp => ?_
  obtain ⟨old, hold⟩ : ∃ old, heap[p]? = some old := ⟨_, List.getElem?_eq_getElem (hlt p hp)⟩
  obtain ⟨d, hnew, hsame⟩ := hgrows p old hold
  have hname : d.name = old.name := by rw [Dentry.name, Dentry.name, hsame.fname]
  rw [hold, hnew]
  simp only [Option.some.injEq, exists_eq_left', hname, hsame.ftype, hsame.ino]

theorem hasEntry_cons {p : DentryPtr} : HasEntry heap (p :: ptrs) name ftype sub ↔
    (∃ d, heap[p]? = some d ∧ d.name = name ∧ d.ftype = ftype ∧ d.ino = sub) ∨
      HasEntry heap ptrs name ftype sub := by
  simp only [HasEntry, List.mem_cons, or_and_right, exists_or, exists_eq_left]

theorem Keeps.grows (h : Keeps catalog heap ftype inode) (hgrows : HeapGrows heap heap')
    (hlt : ∀ p ∈ inode.dentrys, p < heap.length)
    (hsame : ∀ ino : ℕ, inode.ino = ino → catalog'.AgreesAt catalog ino) :
    Keeps catalog' heap' ftype inode := by
  refine ⟨h.nodup, ?_, ?_⟩
  · intro hdir ino hino name t sub
    rw [(hsame ino hino).1, hasEntry_grows hgrows hlt]
    exact h.entry hdir ino hino name t sub
  · intro hfile ino hino
    rw [(hsame ino hino).2]
    exact h.file hfile ino hino

/-- What is in memory stays there. -/
theorem Dormant.of_grows (h : Dormant heap' ino) (hgrows : HeapGrows heap heap') :
    Dormant heap ino := by
  intro ptr dentry inode hloaded hino
  obtain ⟨dentry', hptr', hsame⟩ := hgrows ptr dentry hloaded.here
  obtain ⟨inode', hinode', hino'⟩ := hsame.inode inode hloaded.inode_eq
  exact h ptr dentry' inode' ⟨hptr', hinode'⟩ (hino'.trans hino)

end Growing

section Extending

variable {catalog catalog' : Catalog} {fs fs' : Fs} {ptr : ℕ} {dentry : Dentry} {inode : Inode}
  {more : List Dentry}

/-- A dentry of the extended arena has the number of an old one or its own. -/
theorem extended_number (hptr : fs.heap[ptr]? = some dentry)
    (hheap : fs'.heap = fs.heap.set ptr { dentry with inode := some inode } ++ more)
    {other : ℕ} {d : Dentry} (hother : fs'.heap[other]? = some d) :
    (∃ d₀, fs.heap[other]? = some d₀ ∧ numberAt other d = numberAt other d₀) ∨
      ∃ k, other = fs.heap.length + k ∧ more[k]? = some d ∧ numberAt other d = d.ino := by
  have hlt := (List.getElem?_eq_some_iff.mp hptr).1
  rcases extended_index hheap hother with ⟨rfl, rfl⟩ | ⟨-, hold⟩ | ⟨k, rfl, hk⟩
  · exact Or.inl ⟨dentry, hptr, rfl⟩
  · exact Or.inl ⟨d, hold, rfl⟩
  · exact Or.inr ⟨k, rfl, hk, numberAt_of_ne (by omega) d⟩

/-- Storing an inode that keeps what the catalog says, and adding dentries with numbers of
their own. -/
theorem Matches.extend (h : Matches catalog fs.heap) (hptr : fs.heap[ptr]? = some dentry)
    (hheap : fs'.heap = fs.heap.set ptr { dentry with inode := some inode } ++ more)
    (hnumber : inode.ino = numberAt ptr dentry)
    (hself : Keeps catalog' fs'.heap dentry.ftype inode)
    (hbelow : ∀ other d i, Loaded fs.heap other d i → ∀ p ∈ i.dentrys, p < fs.heap.length)
    (hkeep : ∀ other d i, other ≠ ptr → Loaded fs.heap other d i → ∀ ino : ℕ, i.ino = ino →
      catalog'.AgreesAt catalog ino)
    (hdistinct : (more.map Dentry.ino).Nodup)
    (hnew : ∀ d ∈ more, ∀ other d₀, fs.heap[other]? = some d₀ → d.ino ≠ numberAt other d₀)
    (hmore : ∀ d ∈ more, ∀ i, d.inode = some i → i.ino = d.ino ∧
      Keeps catalog' fs'.heap d.ftype i) : Matches catalog' fs'.heap := by
  have hgrows : HeapGrows fs.heap fs'.heap := by
    have hself : dentry.Grows { dentry with inode := some inode } :=
      ⟨rfl, rfl, rfl, fun i hi => ⟨inode, rfl, hnumber.trans (h.number ⟨hptr, hi⟩).symm⟩⟩
    rw [hheap]
    exact (heapGrows_set hptr hself).trans (heapGrows_append _ more)
  refine ⟨?_, ?_, ?_⟩
  · intro p p' d d' hp hp' heq
    rcases extended_number hptr hheap hp with ⟨d₀, hd₀, hn⟩ | ⟨k, rfl, hk, hn⟩ <;>
      rcases extended_number hptr hheap hp' with ⟨d₁, hd₁, hn'⟩ | ⟨k', rfl, hk', hn'⟩ <;>
      rw [hn, hn'] at heq
    · exact h.inj hd₀ hd₁ heq
    · exact absurd heq.symm (hnew d' (List.mem_of_getElem? hk') p d₀ hd₀)
    · exact absurd heq (hnew d (List.mem_of_getElem? hk) p' d₁ hd₁)
    · have hget : (more.map Dentry.ino)[k]? = (more.map Dentry.ino)[k']? := by
        rw [List.getElem?_map, List.getElem?_map, hk, hk', Option.map_some, Option.map_some, heq]
      have hlt : k < (more.map Dentry.ino).length := by
        rw [List.length_map]
        exact (List.getElem?_eq_some_iff.mp hk).1
      rw [(List.getElem?_inj hlt hdistinct).mp hget]
  · intro p d i hloaded
    obtain ⟨hp, hi⟩ := hloaded
    rcases extended_index hheap hp with ⟨rfl, rfl⟩ | ⟨-, hold⟩ | ⟨k, rfl, hk⟩
    · cases hi
      exact hnumber
    · exact h.number ⟨hold, hi⟩
    · have hlt := (List.getElem?_eq_some_iff.mp hptr).1
      rw [numberAt_of_ne (by omega)]
      exact (hmore d (List.mem_of_getElem? hk) i hi).1
  · intro p d i hloaded
    obtain ⟨hp, hi⟩ := hloaded
    rcases extended_index hheap hp with ⟨rfl, rfl⟩ | ⟨hne, hold⟩ | ⟨k, rfl, hk⟩
    · cases hi
      exact hself
    · exact (h.keeps ⟨hold, hi⟩).grows hgrows (hbelow p d i ⟨hold, hi⟩)
        (hkeep p d i hne ⟨hold, hi⟩)
    · exact (hmore d (List.mem_of_getElem? hk) i hi).2

end Extending

section Loading

variable {catalog : Catalog} {old kinds : Kinds} {fs fs' : Fs} {ino : ℕ} {ftype : FileType}
  {inode : Inode}

/-- The record of a directory with its entries, as the loop that loads them leaves it. -/
theorem readDentrys_keeps (hstored : Stored old fs.disk.bytes ino .dir fun _ => True)
    (harchived : Archived catalog fs.disk.bytes ino .dir) {size : Int}
    (h : readDentrys ino (diskInode fs.disk.bytes ino).dirCnt.toNat 0 fs ⟨ino, size, 0, [], []⟩
      = some (fs', inode)) :
    inode.ino = ino ∧ Keeps catalog fs'.heap .dir inode ∧
      ∃ more, fs'.heap = fs.heap ++ more ∧ (more.map Dentry.ino).Nodup ∧
        ∀ d ∈ more, d.inode = none ∧
          ∃ sub : ℕ, d.ino = sub ∧ catalog.entry ino d.name d.ftype sub := by
  have hnonneg := (hstored.dir rfl).nonneg
  have hino : inode.ino = ino := (readDentrys_grows h).2.2.2
  obtain ⟨hdentrys, -⟩ := readDentrys_links h
  rw [List.append_nil] at hdentrys
  have hstart : readDentrys ino (diskInode fs.disk.bytes ino).dirCnt.toNat ((0 : ℕ) : Int) fs
      ⟨ino, size, 0, [], []⟩ = some (fs', inode) := h
  obtain ⟨more, hmore, hcount, hall⟩ := readDentrys_entries hstart
  have hplace : ∀ k : ℕ, fs'.heap[fs.heap.length + k]? = more[k]? := by
    intro k
    rw [hmore, List.getElem?_append_right (Nat.le_add_right _ _), Nat.add_sub_cancel_left]
  have hsub : ∀ (k : ℕ) (d : Dentry), more[k]? = some d → ∃ sub : ℕ, d.ino = sub ∧
      catalog.entry ino d.name d.ftype sub := by
    intro k d hk
    obtain ⟨-, -, hname, htype, hnum⟩ := hall k d hk
    have hlt := (List.getElem?_eq_some_iff.mp hk).1
    rw [Nat.zero_add] at hname htype hnum
    obtain ⟨sub, hsub, -⟩ := hstored.entries rfl k (by omega) trivial
    refine ⟨sub, hnum.trans hsub, (harchived.entry rfl _ _ _).mpr ⟨k, by omega, ?_, ?_, hsub⟩⟩
    · exact hname.symm
    · exact htype.symm
  refine ⟨hino, ⟨?_, ?_, by simp⟩, more, hmore, ?_, ?_⟩
  · rw [hdentrys]
    exact List.nodup_reverse.mpr List.nodup_range'
  · intro _ ino' hino' name t sub
    obtain rfl : ino' = ino := by omega
    rw [harchived.entry rfl]
    constructor
    · rintro ⟨i, hi, hname, htype, hnum⟩
      have hlt : i < more.length := by omega
      obtain ⟨-, -, hname', htype', hnum'⟩ := hall i _ (List.getElem?_eq_getElem hlt)
      rw [Nat.zero_add] at hname' htype' hnum'
      refine ⟨fs.heap.length + i, ?_, more[i], ?_, hname'.trans hname, htype'.trans htype,
        hnum'.trans hnum⟩
      · rw [hdentrys, List.mem_reverse, List.mem_range'_1]
        omega
      · rw [hplace, List.getElem?_eq_getElem hlt]
    · rintro ⟨p, hp, d, hd, hname, htype, hnum⟩
      rw [hdentrys, List.mem_reverse, List.mem_range'_1] at hp
      obtain ⟨k, rfl⟩ := Nat.exists_eq_add_of_le hp.1
      rw [hplace] at hd
      obtain ⟨-, -, hname', htype', hnum'⟩ := hall k d hd
      rw [Nat.zero_add] at hname' htype' hnum'
      exact ⟨k, by omega, hname'.symm.trans hname, htype'.symm.trans htype, hnum'.symm.trans hnum⟩
  · rw [List.nodup_iff_getElem?_ne_getElem?]
    intro i j hij hj heq
    rw [List.length_map] at hj
    have hi : i < more.length := by omega
    rw [List.getElem?_map, List.getElem?_map, List.getElem?_eq_getElem hi,
      List.getElem?_eq_getElem hj, Option.map_some, Option.map_some, Option.some.injEq] at heq
    have hnum := (hall i _ (List.getElem?_eq_getElem hi)).2.2.2.2
    have hnum' := (hall j _ (List.getElem?_eq_getElem hj)).2.2.2.2
    rw [Nat.zero_add] at hnum hnum'
    have hsame := harchived.distinct rfl i j (by omega) (by omega)
      (hnum.symm.trans (heq.trans hnum'))
    omega
  · intro d hd
    obtain ⟨k, hk⟩ := List.mem_iff_getElem?.mp hd
    exact ⟨(hall k d hk).1, hsub k d hk⟩

/-- Loading an archived number gives an inode that keeps what the catalog says of it, and new
dentries for its entries. -/
theorem readInode_keeps (hdisk : Geometry fs.disk) (hkind : old.kind ino = some ftype)
    (hstored : Stored old fs.disk.bytes ino ftype fun _ => True)
    (harchived : Archived catalog fs.disk.bytes ino ftype)
    (h : readInode fs ftype ino = some (fs', inode)) :
    inode.ino = ino ∧ Keeps catalog fs'.heap ftype inode ∧
      ∃ more, fs'.heap = fs.heap ++ more ∧ (more.map Dentry.ino).Nodup ∧
        ∀ d ∈ more, d.inode = none ∧
          ∃ sub : ℕ, d.ino = sub ∧ catalog.entry ino d.name d.ftype sub := by
  obtain ⟨bytes, hrecord, hcases⟩ := readInode_some h
  have hdecode : InodeD.decode bytes = diskInode fs.disk.bytes ino := by
    rw [(driverRead_some hrecord).2.2, inoOfs_toNat]
    rfl
  rw [hdecode, hstored.ino_eq] at hcases
  rcases hcases with ⟨rfl, hrest⟩ | ⟨rfl, rfl, data, hdata, rfl⟩ | ⟨hdir, hfile, -⟩
  · exact readDentrys_keeps hstored harchived hrest
  · refine ⟨rfl, ⟨List.nodup_nil, by simp, ?_⟩, [], by simp, by simp, by simp⟩
    intro _ ino' hino'
    obtain ⟨hsize, hfits⟩ := hstored.file rfl
    have hregion := hfits.region
    have hup := (roundUp_spec hsize (show (0 : Int) < 1024 by decide)).2.1
    obtain rfl : ino' = ino := by simpa using hino'.symm
    rw [harchived.file rfl, fileOn, recordOn_natCast, Inode.file, (driverRead_some hdata).2.2,
      hdisk.blks]
    simp only
    rw [take_slice _ _ _ _ (by rw [dataPerFile]; omega)]
  · exact ((old.plain ino ftype hkind).elim hdir hfile).elim

end Loading

/-- The catalog with another file under the number. -/
def Catalog.withFile (catalog : Catalog) (ino : ℕ) (content : Int × List Byte) : Catalog :=
  { catalog with file := Function.update catalog.file ino content }

theorem Catalog.withFile_agrees (catalog : Catalog) {ino other : ℕ} (content : Int × List Byte)
    (hne : other ≠ ino) : (catalog.withFile ino content).AgreesAt catalog other :=
  ⟨fun _ _ _ => Iff.rfl, Function.update_of_ne hne _ _⟩

/-- The catalog with one entry more, which leads to an empty number that was not in use. -/
def Catalog.add (catalog : Catalog) (dir : ℕ) (name : List Byte) (ftype : FileType) (sub : ℕ)
    (hfresh : ∀ ino n t, ¬ catalog.entry ino n t sub) (hne : sub ≠ 0) : Catalog where
  entry ino n t s := catalog.entry ino n t s ∨ (ino = dir ∧ n = name ∧ t = ftype ∧ s = sub)
  file := Function.update catalog.file sub (0, [])
  unique := by
    rintro ino ino' n n' t t' s (hold | ⟨rfl, rfl, rfl, hs⟩) (hold' | ⟨rfl, rfl, rfl, hs'⟩)
    · exact catalog.unique hold hold'
    · exact absurd (hs' ▸ hold) (hfresh _ _ _)
    · exact absurd (hs ▸ hold') (hfresh _ _ _)
    · exact ⟨rfl, rfl, rfl⟩
  root_free := by
    rintro ino n t (hold | ⟨-, -, -, hzero⟩)
    · exact catalog.root_free _ _ _ hold
    · exact hne hzero.symm

theorem Catalog.add_agrees (catalog : Catalog) {dir sub other : ℕ} (name : List Byte)
    (ftype : FileType) (hfresh : ∀ ino n t, ¬ catalog.entry ino n t sub) (hne : sub ≠ 0)
    (hdir : other ≠ dir) (hsub : other ≠ sub) :
    (catalog.add dir name ftype sub hfresh hne).AgreesAt catalog other :=
  ⟨fun _ _ _ => or_iff_left fun hnew => hdir hnew.1, Function.update_of_ne hsub _ _⟩

/-- The directory that the entry is added to: the new dentry is in front of its list. -/
theorem Keeps.enter {catalog : Catalog} {heap heap' : List Dentry} {inode linked : Inode}
    {added : Dentry} {dir sub : ℕ} (h : Keeps catalog heap .dir inode)
    (hgrows : HeapGrows heap heap') (hlt : ∀ p ∈ inode.dentrys, p < heap.length)
    (hdir : inode.ino = dir) (hlinked : linked.ino = inode.ino)
    (hfront : linked.dentrys = heap.length :: inode.dentrys)
    (hadded : heap'[heap.length]? = some added) (hnumber : added.ino = sub)
    (hfresh : ∀ ino n t, ¬ catalog.entry ino n t sub) (hne : sub ≠ 0) :
    Keeps (catalog.add dir added.name added.ftype sub hfresh hne) heap' .dir linked := by
  refine ⟨?_, ?_, fun hfile => by cases hfile⟩
  · rw [hfront]
    exact List.nodup_cons.mpr ⟨fun hmem => Nat.lt_irrefl _ (hlt _ hmem), h.nodup⟩
  · intro _ ino hino n t s
    obtain rfl : ino = dir := Int.natCast_inj.mp (hino.symm.trans (hlinked.trans hdir))
    rw [hfront, hasEntry_cons, hasEntry_grows hgrows hlt, ← h.entry rfl ino hdir, or_comm]
    refine or_congr_right ?_
    simp only [hadded, Option.some.injEq, exists_eq_left', true_and]
    rw [hnumber, Int.natCast_inj]
    exact ⟨fun ⟨hn, ht, hs⟩ => ⟨hn.symm, ht.symm, hs.symm⟩,
      fun ⟨hn, ht, hs⟩ => ⟨hn.symm, ht.symm, hs.symm⟩⟩

/-- The number that the new entry leads to: a directory without entries or an empty file. -/
theorem Catalog.add_keeps {catalog : Catalog} {heap : List Dentry} {inode : Inode}
    {dir sub : ℕ} {name : List Byte} {ftype ftype' : FileType}
    (hfresh : ∀ ino n t, ¬ catalog.entry ino n t sub) (hne : sub ≠ 0)
    (hbarren : ∀ n t s, ¬ catalog.entry sub n t s) (hdir : sub ≠ dir) (hino : inode.ino = sub)
    (hnil : inode.dentrys = []) (hempty : inode.file = (0, [])) :
    Keeps (catalog.add dir name ftype sub hfresh hne) heap ftype' inode := by
  refine ⟨by simp [hnil], ?_, ?_⟩
  · intro _ ino hino' n t s
    obtain rfl : sub = ino := Int.natCast_inj.mp (hino.symm.trans hino')
    rw [hnil]
    refine iff_of_false ?_ (by simp [HasEntry])
    rintro (hold | ⟨heq, -⟩)
    · exact hbarren n t s hold
    · exact hdir heq
  · intro _ ino hino'
    obtain rfl : sub = ino := Int.natCast_inj.mp (hino.symm.trans hino')
    exact (Function.update_self _ _ _).trans hempty.symm

section Effects

variable {catalog : Catalog} {old kinds : Kinds} {fs fs' : Fs}
  (h : Represents catalog old kinds fs)

include h

theorem Represents.below (other : ℕ) (d : Dentry) (i : Inode) (hloaded : Loaded fs.heap other d i) :
    ∀ p ∈ i.dentrys, p < fs.heap.length :=
  fun p hp => (h.charted.entry_lt other p ⟨d, i, hloaded.here, hloaded.inode_eq, hp⟩).2

/-- The number of an inode in memory. -/
theorem Represents.exists_number {ptr : ℕ} {dentry : Dentry} {inode : Inode}
    (hloaded : Loaded fs.heap ptr dentry inode) :
    ∃ ino : ℕ, inode.ino = ino ∧ numberAt ptr dentry = ino ∧
      kinds.kind ino = some dentry.ftype := by
  obtain ⟨ino, hkind, hshape⟩ := h.charted.shape ptr dentry inode hloaded.here hloaded.inode_eq
  exact ⟨ino, hshape.ino_eq, (h.memory.number hloaded).symm.trans hshape.ino_eq, hkind⟩

/-- Inodes in memory with one number are the same. -/
theorem Represents.number_ne {ptr other ino n : ℕ} {dentry d : Dentry} {inode i : Inode}
    (hloaded : Loaded fs.heap ptr dentry inode) (hino : inode.ino = ino) (hne : other ≠ ptr)
    (hother : Loaded fs.heap other d i) (hn : i.ino = n) : n ≠ ino := by
  rintro rfl
  apply hne
  apply h.memory.inj hother.here hloaded.here
  rw [← h.memory.number hother, ← h.memory.number hloaded, hn, hino]

/-- The end of a lookup. -/
theorem Represents.load {ptr : DentryPtr} (hload : loadInode fs ptr = some fs') :
    Represents catalog old kinds fs' := by
  have hcharted := h.charted.load hload
  have hgrows := loadInode_grows hload
  obtain ⟨dentry, hptr, ⟨-, rfl⟩ | ⟨hnull, fs₁, inode, hread, rfl⟩⟩ := loadInode_some hload
  · exact h
  · obtain ⟨ino, hino, hnumber, hkind, hdormant⟩ := h.unloaded hptr hnull
    rw [hino] at hread
    obtain ⟨hself, hkeeps, more, hmore, hdistinct, hall⟩ :=
      readInode_keeps h.charted.mounted.geometry hkind (h.charted.stored ino _ hkind)
        (h.dormant ino _ hkind hdormant) hread
    have hlt := (List.getElem?_eq_some_iff.mp hptr).1
    have hheap : (fs₁.setInode ptr dentry inode).heap
        = fs.heap.set ptr { dentry with inode := some inode } ++ more := by
      rw [Fs.setInode, hmore, List.set_append_left _ _ hlt]
    have hptr₁ : fs₁.heap[ptr]? = some dentry := by
      rw [hmore, List.getElem?_append_left hlt, hptr]
    have hstay : HeapGrows fs₁.heap (fs₁.setInode ptr dentry inode).heap :=
      heapGrows_set hptr₁ ⟨rfl, rfl, rfl, by simp [hnull]⟩
    have hstored : (fs₁.setInode ptr dentry inode).heap[ptr]?
        = some { dentry with inode := some inode } := by
      rw [heap_setInode hptr₁, if_pos rfl]
    have hbelow : ∀ p ∈ inode.dentrys, p < fs₁.heap.length := by
      intro p hp
      have hlt' := (hcharted.entry_lt ptr p ⟨_, inode, hstored, rfl, hp⟩).2
      rwa [Fs.setInode, List.length_set] at hlt'
    refine ⟨hcharted, h.typed, ?_, ?_⟩
    · refine h.memory.extend hptr hheap (hself.trans hnumber.symm)
        (hkeeps.grows hstay hbelow fun _ _ => .refl _ _) h.below
        (fun _ _ _ _ _ _ _ => .refl _ _) hdistinct ?_ ?_
      · -- A new dentry with the number of an old one would be the entry of two directories.
        intro d hd other d₀ hother heq
        obtain ⟨-, sub, hsub, hentry⟩ := hall d hd
        rw [hsub] at heq
        by_cases hzero : other = 0
        · rw [numberAt, if_pos hzero] at heq
          rw [Int.natCast_eq_zero.mp heq] at hentry
          exact catalog.root_free _ _ _ hentry
        · obtain ⟨sub', ino', hsub', hawake, hentry'⟩ := h.listed hzero hother
          rw [numberAt_of_ne hzero, hsub', Int.natCast_inj] at heq
          subst heq
          obtain ⟨rfl, -, -⟩ := catalog.unique hentry hentry'
          exact hawake hdormant
      · intro d hd i hi
        rw [(hall d hd).1] at hi
        cases hi
    · intro n t hn hdormant'
      rw [hgrows.disk]
      exact h.dormant n t hn (hdormant'.of_grows hgrows.heap)

/-- A write to a file. -/
theorem Represents.overlay {ptr : ℕ} {dentry : Dentry} {inode : Inode}
    (hloaded : Loaded fs.heap ptr dentry inode) (hfile : dentry.ftype ≠ .dir) {buf : List Byte}
    {offset : Int}
    (hcharted : Charted old kinds (fs.setInode ptr dentry (inode.overlay buf offset))) :
    ∃ catalog', Represents catalog' old kinds
      (fs.setInode ptr dentry (inode.overlay buf offset)) := by
  obtain ⟨hptr, hinode⟩ := hloaded
  obtain ⟨ino, hino, hnumber, -⟩ := h.exists_number ⟨hptr, hinode⟩
  have hgrows :=
    heapGrows_setInode hptr hinode (show (inode.overlay buf offset).ino = inode.ino from rfl)
  have hheap : (fs.setInode ptr dentry (inode.overlay buf offset)).heap
      = fs.heap.set ptr { dentry with inode := some (inode.overlay buf offset) } ++ [] := by
    rw [List.append_nil]
    rfl
  refine ⟨catalog.withFile ino (inode.overlay buf offset).file, hcharted, h.typed, ?_, ?_⟩
  · refine h.memory.extend hptr hheap (hino.trans hnumber.symm) ⟨?_, ?_, ?_⟩ h.below ?_
      List.nodup_nil (by simp) (by simp)
    · exact (h.memory.keeps ⟨hptr, hinode⟩).nodup
    · exact fun hdir => absurd hdir hfile
    · intro _ ino' hino'
      obtain rfl : ino' = ino := Int.natCast_inj.mp (hino'.symm.trans hino)
      exact Function.update_self _ _ _
    · intro other d i hne hother n hn
      exact catalog.withFile_agrees _ (h.number_ne ⟨hptr, hinode⟩ hino hne hother hn)
  · intro n t hn hdormant
    have hasleep := hdormant.of_grows hgrows
    have hne : n ≠ ino := by
      rintro rfl
      exact hasleep ptr dentry inode ⟨hptr, hinode⟩ hino
    exact (h.dormant n t hn hasleep).agrees (catalog.withFile_agrees _ hne)

/-- Creation with a number that is claimed. -/
theorem Represents.create {ptr : DentryPtr} {inode : Inode} (hopen : Open fs.heap ptr inode)
    {name : List Byte} {ftype : FileType} {dentry : Dentry}
    (hdentry : newDentry name ftype = some dentry) {c : ℕ} {mapInode : List Byte}
    (hclaim : claimBit fs.super.mapInode 0 = some (c, mapInode))
    (hlimit : (c : Int) ≠ fs.super.maxIno) {junk : Junk}
    (hcreate : Newfs.create fs ptr dentry junk = some fs') {hc : c < 3968}
    {hplain : ftype = .dir ∨ ftype = .file}
    (hcharted : Charted old (kinds.add c ftype hc hplain) fs') :
    ∃ catalog', Represents catalog' old (kinds.add c ftype hc hplain) fs' := by
  have hgrows := create_grows hcreate
  have hnew := h.charted.kind_claimed hclaim
  obtain ⟨-, rfl⟩ := newDentry_some hdentry
  obtain ⟨last, lastInode, hlast, hinode, super, added, super', linked, halloc,
    ⟨ret, hlink⟩, rfl⟩ :=
    create_some hcreate
  obtain ⟨last', hlast', hdir, hinode'⟩ := hopen
  rw [hlast] at hlast'
  cases hlast'
  rw [hinode] at hinode'
  cases hinode'
  have hadded := @allocInode_added
    ⟨name ++ List.replicate (maxFileName - name.length) 0, ftype, -1, none⟩ fs.super c mapInode
    hclaim hlimit (blksSz fs.disk.szIo) junk
  have hfront := allocDentry_dentrys (blksSz fs.disk.szIo) super inode fs.heap.length
  have hlinkedIno := (allocDentry_grows (blksSz fs.disk.szIo) super inode fs.heap.length).2
  rw [halloc] at hadded
  rw [hlink] at hfront hlinkedIno
  simp only at hadded hfront hlinkedIno
  have hloaded : Loaded fs.heap ptr last inode := ⟨hlast, hinode⟩
  obtain ⟨dir, hdirIno, hdirNumber, hdirKind⟩ := h.exists_number hloaded
  have hused : ∀ {ino t}, kinds.kind ino = some t → ino ≠ c := by
    rintro ino t hkind rfl
    rw [hnew] at hkind
    cases hkind
  have hfresh : ∀ ino n t, ¬ catalog.entry ino n t c := by
    intro ino n t hentry
    exact hused (h.typed ino n t c hentry).2 rfl
  have hzero : c ≠ 0 := (hused h.charted.root_kind).symm
  have hlast' : ((fs.setInode ptr last linked).heap ++ [added])[fs.heap.length]? = some added := by
    rw [heap_setInode_append hlast, if_pos rfl]
  refine ⟨catalog.add dir added.name added.ftype c hfresh hzero, hcharted, ?_, ?_, ?_⟩
  · rintro ino n t sub (hold | ⟨rfl, rfl, rfl, rfl⟩)
    · obtain ⟨hino, hsub⟩ := h.typed ino n t sub hold
      exact ⟨kinds.add_of_some hc hplain hnew hino, kinds.add_of_some hc hplain hnew hsub⟩
    · rw [hdir] at hdirKind
      refine ⟨kinds.add_of_some hc hplain hnew hdirKind, ?_⟩
      rw [hadded]
      exact Function.update_self _ _ _
  · refine h.memory.extend hlast rfl ((hlinkedIno.trans hdirIno).trans hdirNumber.symm)
      ?_ h.below ?_ (List.nodup_singleton _) ?_ ?_
    · have hkeeps := h.memory.keeps hloaded
      rw [hdir] at hkeeps ⊢
      exact hkeeps.enter hgrows.heap (h.below ptr last inode hloaded) hdirIno hlinkedIno hfront
        hlast' (by rw [hadded]) hfresh hzero
    · intro other d i hne hother n hn
      obtain ⟨m, hm, -, hmKind⟩ := h.exists_number hother
      obtain rfl : m = n := Int.natCast_inj.mp (hm.symm.trans hn)
      exact catalog.add_agrees _ _ hfresh hzero (h.number_ne hloaded hdirIno hne hother hn)
        (hused hmKind)
    · intro d hd other d₀ hother heq
      rw [List.mem_singleton.mp hd, hadded] at heq
      by_cases hroot : other = 0
      · rw [numberAt, if_pos hroot] at heq
        exact hzero (Int.natCast_eq_zero.mp heq)
      · obtain ⟨-, m, hm, hmKind⟩ := h.charted.numbered other d₀ hroot hother
        rw [numberAt_of_ne hroot, hm] at heq
        exact hused hmKind (Int.natCast_inj.mp heq).symm
    · intro d hd i hi
      rw [List.mem_singleton.mp hd, hadded] at hi ⊢
      cases hi
      refine ⟨rfl, catalog.add_keeps hfresh hzero ?_ ?_ rfl rfl rfl⟩
      · exact fun n t sub hold => hused (h.typed c n t sub hold).1 rfl
      · exact fun heq => hused hdirKind heq.symm
  · intro n t hn hdormant
    have hasleep := hdormant.of_grows hgrows.heap
    have hne : n ≠ dir := by
      rintro rfl
      exact hasleep ptr last inode hloaded hdirIno
    exact (h.dormant n t hn hasleep).agrees
      (catalog.add_agrees _ _ hfresh hzero hne (hused (h.charted.old_le n t hn)))

/-- A creating call that leaves room. -/
theorem Represents.make {maker : Maker} {path : List Byte} {junk : Junk} {ret : Int}
    (hroom : RoomToMake fs maker path) (hcall : maker.call fs path junk = some (fs', ret)) :
    ∃ catalog' kinds', Represents catalog' old kinds' fs' := by
  by_cases hret : ret = 0
  · subst hret
    obtain ⟨found, inode, fname, ftype, dentry, hlookup, hmiss, hopen, hfname, hftype, hdentry,
      hcreate⟩ := Maker.call_zero hcall
    obtain ⟨fname', ftype', c, mapInode, hdentry', hclaim, hlimit, hc, hplain, hcharted⟩ :=
      h.charted.create_roomy hroom
        ⟨⟨found, hlookup, hmiss, rfl⟩, hopen, fname, ftype, hfname, hftype, hdentry⟩ hcreate
    obtain ⟨catalog', hrepresents⟩ := h.create hopen hdentry' hclaim hlimit hcreate hcharted
    exact ⟨catalog', _, hrepresents⟩
  · obtain ⟨found, hlookup, -⟩ := Maker.call_error hcall hret
    exact ⟨catalog, kinds, h.load (lookup_some hlookup).2.1⟩

/-- A write that leaves room. -/
theorem Represents.write {path buf : List Byte} {offset ret : Int}
    (hroom : RoomToWrite fs path buf offset)
    (hwrite : Newfs.write fs path buf offset = some (fs', ret)) :
    ∃ catalog', Represents catalog' old kinds fs' := by
  have hcharted := h.charted.write hroom hwrite
  obtain ⟨fs₁, found, hlookup, rfl | ⟨-, dentry, inode, hptr, hinode, hdir, -, -, -, rfl⟩⟩ :=
    write_some hwrite
  · exact ⟨catalog, h.load (lookup_some hlookup).2.1⟩
  · exact (h.load (lookup_some hlookup).2.1).overlay ⟨hptr, hinode⟩ hdir hcharted

end Effects

end OperateSystem.Newfs
